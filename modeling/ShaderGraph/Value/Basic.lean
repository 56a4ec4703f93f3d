import ShaderGraph.Value.Matrix
import ShaderGraph.Value.Type
/-!
The values that inputs of a material hold: their literals, their description and their form in
documents.
-/

namespace ShaderGraph

open Number

/-- A value of a concrete type. -/
inductive Value where
  | float (x : Single)
  | int (n : Int)
  | vector2 (v : Vector Single 2)
  | vector3 (v : Vector Single 3)
  | vector4 (v : Vector Single 4)
  | color3 (v : Vector Single 3)
  | color4 (v : Vector Single 4)
  | matrix (m : Matrix)
deriving DecidableEq, Repr

namespace Value

def type : Value → ValueType
  | .float _ => .float
  | .int _ => .int
  | .vector2 _ => .vector2
  | .vector3 _ => .vector3
  | .vector4 _ => .vector4
  | .color3 _ => .color3
  | .color4 _ => .color4
  | .matrix _ => .matrix

/-- The numbers a value is made of. -/
def components : Value → List Single
  | .float x => [x]
  | .int n => [Binary.ofInt n]
  | .vector2 v => v.toList
  | .vector3 v | .color3 v => v.toList
  | .vector4 v | .color4 v => v.toList
  | .matrix m => m.toList

/-- Texts with a comma and a blank between them. -/
def commaList (parts : List String) : String := String.intercalate ", " parts

/-- The literal of a value in a shading language. -/
def literal (l : Language) : Value → String
  | .int n => toString n
  | .float x => x.literal
  | v => v.type.shaderName l ++ "(" ++ commaList (v.components.map Single.literal) ++ ")"

/-- The value that stands in where none is given. -/
def default : ValueType → Value
  | .int => .int 0
  | .vector2 => .vector2 (Vector.replicate 2 Binary.zero)
  | .vector3 => .vector3 (Vector.replicate 3 Binary.zero)
  | .vector4 => .vector4 (Vector.replicate 4 Binary.zero)
  | .color3 => .color3 (Vector.replicate 3 Binary.zero)
  | .color4 => .color4 #v[Binary.zero, Binary.zero, Binary.zero, Single.one]
  | .matrix => .matrix Matrix.identity
  | _ => .float Binary.zero

theorem type_default (t : ValueType) (h : t.isConcrete = true) : (default t).type = t := by
  cases t <;> simp_all [ValueType.isConcrete, default, type]

/-- The value with its type, as people read it. -/
def describe (v : Value) : String :=
  let inner := match v with
    | .int n => toString n
    | .float x => x.text
    | v => "[" ++ commaList (v.components.map Single.text) ++ "]"
  v.type.name ++ "(" ++ inner ++ ")"

/-! ## In documents -/

def contents : Value → Json
  | .int n => .integer n
  | .float x => Json.ofSingle x
  | v => .array (v.components.map Json.ofSingle)

def toJson (v : Value) : Json :=
  .object [("type", .string v.type.name), ("value", v.contents)]

end Value

namespace Json

/-- A number as a single; an integer is rounded once. -/
def single? : Json → Option Single
  | .integer n => some (Binary.ofInt n)
  | .real x => some (Binary.convert x)
  | _ => none

/-- An integer of the closed range. -/
def integerWithin? (lo hi : Int) : Json → Option Int
  | .integer n => if lo ≤ n ∧ n ≤ hi then some n else none
  | _ => none

/-- A natural number below `2 ^ 32`. -/
def word? (v : Json) : Option Nat := (v.integerWithin? 0 (twoTo 32 - 1)).map Int.toNat

def bool? : Json → Option Bool
  | .bool b => some b
  | _ => none

def string? : Json → Option String
  | .string s => some s
  | _ => none

/-- An array of exactly `n` singles. -/
def singles? (n : Nat) : Json → Option (Vector Single n)
  | .array items => do
    let xs ← items.mapM single?
    if h : xs.length = n then some ⟨xs.toArray, by simpa using h⟩ else none
  | _ => none

/-- A field that may be left out, or be null. -/
def optionalField? {α : Type} (fields : List (String × Json)) (key : String)
    (read : Json → Option α) : Option (Option α) :=
  match Json.field? fields key with
  | none | some .null => some none
  | some v => (read v).map some

/-- A field that may be left out, but not be null. -/
def fieldOr? {α : Type} (fields : List (String × Json)) (key : String) (absent : α)
    (read : Json → Option α) : Option α :=
  match Json.field? fields key with
  | none => some absent
  | some v => read v

end Json

namespace Value

/-- The value of the named type with the given contents. -/
def ofContents? (type : ValueType) (contents : Json) : Option Value :=
  match type with
  | .float => contents.single?.map .float
  | .int => (contents.integerWithin? least32 greatest32).map .int
  | .vector2 => (contents.singles? 2).map .vector2
  | .vector3 => (contents.singles? 3).map .vector3
  | .vector4 => (contents.singles? 4).map .vector4
  | .color3 => (contents.singles? 3).map .color3
  | .color4 => (contents.singles? 4).map .color4
  | .matrix => (contents.singles? 16).map .matrix
  | _ => none

/-- Reads a value: an object with the fields `type` and `value`, or the two in an array. -/
def ofJson? : Json → Option Value
  | .object fields => do
    let type ← (← Json.field? fields "type").choice? >>= ValueType.ofName?
    ofContents? type (← Json.field? fields "value")
  | .array [type, contents] => do
    ofContents? (← type.choice? >>= ValueType.ofName?) contents
  | _ => none

end Value

end ShaderGraph
