import ShaderGraph.Json.Basic
/-!
The types of values that flow between blocks, and the two shading languages they are written in.

`ValueType.compatible` is symmetric but not transitive: a socket of type `autoDetect` is compatible
with every type, and colors are compatible with the vectors of their size.
-/

namespace ShaderGraph

/-- A shading language. -/
inductive Language where
  | wgsl
  | glsl
deriving DecidableEq, Repr, Inhabited

namespace Language

/-- The name shown to people. -/
def name : Language → String
  | .wgsl => "Wgsl"
  | .glsl => "Glsl"

/-- The name in documents, which is also the ending of files. -/
def tag : Language → String
  | .wgsl => "wgsl"
  | .glsl => "glsl"

def ofTag? : String → Option Language
  | "wgsl" => some .wgsl
  | "glsl" => some .glsl
  | _ => none

end Language

/-- The type of a socket. -/
inductive ValueType where
  | float
  | int
  | vector2
  | vector3
  | vector4
  | color3
  | color4
  | matrix
  /-- Taken from whatever is connected. -/
  | autoDetect
  /-- An output that follows an input of its block. -/
  | basedOnInput
deriving DecidableEq, Repr, Inhabited

namespace ValueType

def all : List ValueType :=
  [.float, .int, .vector2, .vector3, .vector4, .color3, .color4, .matrix, .autoDetect,
    .basedOnInput]

def name : ValueType → String
  | .float => "Float"
  | .int => "Int"
  | .vector2 => "Vector2"
  | .vector3 => "Vector3"
  | .vector4 => "Vector4"
  | .color3 => "Color3"
  | .color4 => "Color4"
  | .matrix => "Matrix"
  | .autoDetect => "AutoDetect"
  | .basedOnInput => "BasedOnInput"

def ofName? (s : String) : Option ValueType := all.find? fun t => t.name == s

/-- Types that name an actual shader type. -/
def isConcrete : ValueType → Bool
  | .autoDetect | .basedOnInput => false
  | _ => true

/-- Whether a value of the first type may feed a socket of the second. -/
def compatible (source target : ValueType) : Bool :=
  source == target || target == .autoDetect || source == .autoDetect ||
    match source, target with
    | .vector3, .color3 | .color3, .vector3 | .vector4, .color4 | .color4, .vector4 => true
    | _, _ => false

/-- How many numbers a value of the type has. -/
def components : ValueType → Nat
  | .vector2 => 2
  | .vector3 | .color3 => 3
  | .vector4 | .color4 => 4
  | .matrix => 16
  | _ => 1

/-- The name of the type in a shading language; a type that is still open is written as a
scalar. -/
def shaderName : Language → ValueType → String
  | .wgsl, .int => "i32"
  | .wgsl, .vector2 => "vec2f"
  | .wgsl, .vector3 | .wgsl, .color3 => "vec3f"
  | .wgsl, .vector4 | .wgsl, .color4 => "vec4f"
  | .wgsl, .matrix => "mat4x4f"
  | .wgsl, _ => "f32"
  | .glsl, .int => "int"
  | .glsl, .vector2 => "vec2"
  | .glsl, .vector3 | .glsl, .color3 => "vec3"
  | .glsl, .vector4 | .glsl, .color4 => "vec4"
  | .glsl, .matrix => "mat4"
  | .glsl, _ => "float"

/-- The type to which an operation on two values widens: the one with more components, and of two
equally wide ones the one that is not an integer. -/
def wider (a b : ValueType) : ValueType :=
  if a.components < b.components then b
  else if a.components = b.components ∧ a = .int then b
  else a

theorem compatible_comm (a b : ValueType) : a.compatible b = b.compatible a := by
  cases a <;> cases b <;> rfl

end ValueType

/-- A name written as text, or as an object with that name as its one field and no value. Both
spell a choice without contents. -/
def Json.choice? : Json → Option String
  | .string s => some s
  | .object [(s, .null)] => some s
  | _ => none

end ShaderGraph
