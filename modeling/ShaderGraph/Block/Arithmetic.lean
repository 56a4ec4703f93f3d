import ShaderGraph.Block.Site
/-!
Blocks that compute: binary operations, clamping, interpolation, vectors from parts, and the
product of a matrix and a vector.
-/

namespace ShaderGraph

open Number

/-- A binary operation, applied component by component. -/
inductive MathOp where
  | add
  | subtract
  | multiply
  | divide
  | min
  | max
deriving DecidableEq, Repr

namespace MathOp

def all : List MathOp := [.add, .subtract, .multiply, .divide, .min, .max]

def name : MathOp → String
  | .add => "Add"
  | .subtract => "Subtract"
  | .multiply => "Multiply"
  | .divide => "Divide"
  | .min => "Min"
  | .max => "Max"

def className (op : MathOp) : String := op.name ++ "Block"

def ofClassName? (s : String) : Option MathOp := all.find? fun op => op.className == s

def expression (op : MathOp) (left right : String) : String :=
  match op with
  | .add => left ++ " + " ++ right
  | .subtract => left ++ " - " ++ right
  | .multiply => left ++ " * " ++ right
  | .divide => left ++ " / " ++ right
  | .min => "min(" ++ left ++ ", " ++ right ++ ")"
  | .max => "max(" ++ left ++ ", " ++ right ++ ")"

def inputs : List SocketSpec :=
  [{ name := "left", type := .autoDetect, excluded := [.matrix] },
    { name := "right", type := .autoDetect, excluded := [.matrix] }]

end MathOp

/-- An output that follows the first input unless the kind decides otherwise. -/
def followingOutput : List SocketSpec :=
  [{ name := "output", type := .basedOnInput, typeSource := some 0 }]

/-- Both operands in their common type. -/
def unifyOperands {κ : Type} (left right : Slot) : Emit κ (ValueType × String × String) := do
  let type := left.type.wider right.type
  let l ← Emit.language
  match l.coerce left.symbol left.type type, l.coerce right.symbol right.type type with
  | some a, some b => return (type, a, b)
  | _, _ => throw (.operands left.type right.type)

def MathOp.build (op : MathOp) : Emit MathOp Unit := do
  let left ← Emit.input "left"
  let right ← Emit.input "right"
  let (_, l, r) ← unifyOperands left right
  Emit.declareOutput "output" (op.expression l r)

/-- Holds a value between two bounds. -/
structure Clamp where
  minimum : Single := Binary.zero
  maximum : Single := Single.one
deriving DecidableEq, Repr

namespace Clamp

def inputs : List SocketSpec := [{ name := "value", type := .autoDetect, excluded := [.matrix] }]

/-- A bound as a 32-bit integer. -/
def wholeBound (x : Single) : String := toString (x.toIntWithin least32 greatest32)

def build : Emit Clamp Unit := do
  let value ← Emit.input "value"
  let c := (← get).kind
  let l ← Emit.language
  let bound (x : Single) :=
    if value.type = .int then wholeBound x else l.splat x.literal value.type
  Emit.declareOutput "output"
    ("clamp(" ++ value.symbol ++ ", " ++ bound c.minimum ++ ", " ++ bound c.maximum ++ ")")

def fields (c : Clamp) : List (String × Json) :=
  [("maximum", Json.ofSingle c.maximum), ("minimum", Json.ofSingle c.minimum)]

def ofFields? (fields : List (String × Json)) : Option Clamp := do
  let minimum ← (← Json.field? fields "minimum").single?
  let maximum ← (← Json.field? fields "maximum").single?
  return { minimum, maximum }

def constructorCode (c : Clamp) : String :=
  "ClampBlock \x7b minimum: " ++ c.minimum.literal ++ ", maximum: " ++ c.maximum.literal ++ " \x7d"

end Clamp

namespace Lerp

def inputs : List SocketSpec :=
  [{ name := "left", type := .autoDetect, excluded := [.matrix, .int] },
    { name := "right", type := .autoDetect, excluded := [.matrix, .int] },
    { name := "gradient", type := .autoDetect, excluded := [.matrix] }]

/-- The blend factor next to operands of a type. One language wants it as wide as the operands. -/
def blendFactor {κ : Type} (gradient : Slot) (type : ValueType) : Emit κ String := do
  let l ← Emit.language
  if gradient.type.components = 1 then
    let g := if gradient.type = .int then l.castFloat gradient.symbol else gradient.symbol
    return match l with
      | .wgsl => l.splat g type
      | .glsl => g
  else
    match l.coerce gradient.symbol gradient.type type with
    | some g => return g
    | none => throw (.gradient gradient.type type)

def build {κ : Type} : Emit κ Unit := do
  let left ← Emit.input "left"
  let right ← Emit.input "right"
  let gradient ← Emit.input "gradient"
  let (type, l, r) ← unifyOperands left right
  let g ← blendFactor gradient type
  Emit.declareOutput "output" ("mix(" ++ l ++ ", " ++ r ++ ", " ++ g ++ ")")

end Lerp

namespace VectorMerger

def inputs : List SocketSpec :=
  [{ name := "xyIn", type := .vector2, optional := true },
    { name := "x", type := .float, optional := true },
    { name := "y", type := .float, optional := true },
    { name := "z", type := .float, optional := true },
    { name := "w", type := .float, optional := true }]

def outputs : List SocketSpec :=
  [{ name := "xyzw", type := .vector4 }, { name := "xyz", type := .vector3 },
    { name := "xy", type := .vector2 }]

/-- A component; one that is not connected is zero. -/
def component {κ : Type} (name : String) : Emit κ String := do
  let slot ← Emit.input name
  return if slot.connected then slot.symbol else "0.0"

/-- Declares an output that something reads. -/
def declareRead {κ : Type} (name expr : String) : Emit κ Unit := do
  if (← Emit.output name).connected then Emit.declareOutput name expr

def build {κ : Type} : Emit κ Unit := do
  let l ← Emit.language
  let xyIn ← Emit.input "xyIn"
  let xy ← if xyIn.connected then pure xyIn.symbol
    else do
      let x ← component "x"
      let y ← component "y"
      pure (ValueType.vector2.shaderName l ++ "(" ++ x ++ ", " ++ y ++ ")")
  let z ← component "z"
  let w ← component "w"
  declareRead "xyzw" (ValueType.vector4.shaderName l ++ "(" ++ xy ++ ", " ++ z ++ ", " ++ w ++ ")")
  declareRead "xyz" (ValueType.vector3.shaderName l ++ "(" ++ xy ++ ", " ++ z ++ ")")
  declareRead "xy" xy

end VectorMerger

/-- Multiplies a vector by a matrix. Missing components of the vector are completed. -/
structure Transform where
  complementZ : Single := Binary.zero
  complementW : Single := Single.one
deriving DecidableEq, Repr

namespace Transform

def inputs : List SocketSpec :=
  [{ name := "vector", type := .autoDetect, excluded := [.float, .int, .matrix] },
    { name := "transform", type := .matrix }]

def outputs : List SocketSpec :=
  [{ name := "output", type := .vector4 }, { name := "xyz", type := .vector3 }]

/-- The vector with four components. -/
def complete (t : Transform) (l : Language) (vector : Slot) : String :=
  let vec4 := ValueType.vector4.shaderName l
  match vector.type with
  | .vector2 =>
    vec4 ++ "(" ++ vector.symbol ++ ", " ++ t.complementZ.literal ++ ", " ++
      t.complementW.literal ++ ")"
  | .vector3 | .color3 => vec4 ++ "(" ++ vector.symbol ++ ", " ++ t.complementW.literal ++ ")"
  | _ => vector.symbol

def build : Emit Transform Unit := do
  let vector ← Emit.input "vector"
  let transform ← Emit.input "transform"
  if vector.connected && transform.connected then
    let t := (← get).kind
    Emit.declareOutput "output" (transform.symbol ++ " * " ++ t.complete (← Emit.language) vector)
    if (← Emit.output "xyz").connected then
      Emit.declareOutput "xyz" ((← Emit.output "output").symbol ++ ".xyz")

def fields (t : Transform) : List (String × Json) :=
  [("complementW", Json.ofSingle t.complementW), ("complementZ", Json.ofSingle t.complementZ)]

def ofFields? (fields : List (String × Json)) : Option Transform := do
  let complementZ ← (← Json.field? fields "complementZ").single?
  let complementW ← (← Json.field? fields "complementW").single?
  return { complementZ, complementW }

def constructorCode (t : Transform) : String :=
  if t.complementW.same Single.one && t.complementZ.same Binary.zero then "TransformBlock::new()"
  else
    "TransformBlock \x7b complement_z: " ++ t.complementZ.literal ++ ", complement_w: " ++
      t.complementW.literal ++ " \x7d"

end Transform

end ShaderGraph
