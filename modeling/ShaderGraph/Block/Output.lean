import ShaderGraph.Block.Site
/-!
The blocks that write the results of the two stages: the vertex position and the fragment color.
-/

namespace ShaderGraph

namespace VertexOutput

def inputs : List SocketSpec := [{ name := "vector", type := .vector4, accepted := [.vector3] }]

def build {κ : Type} : Emit κ Unit := do
  let vector ← Emit.input "vector"
  if vector.connected then
    let l ← Emit.language
    let value := match vector.type with
      | .vector3 | .color3 => ValueType.vector4.shaderName l ++ "(" ++ vector.symbol ++ ", 1.0)"
      | _ => vector.symbol
    Emit.push (l.position ++ " = " ++ value ++ ";\n")

end VertexOutput

/-- Writes the color from `rgba`, or from `rgb` and `a`, and may move it to another color space. -/
structure FragmentOutput where
  gamma : Bool := false
  linear : Bool := false
  /-- The defines that the last pass gave to the two conversions. -/
  gammaDefine : String := ""
  linearDefine : String := ""
deriving DecidableEq, Repr

namespace FragmentOutput

def inputs : List SocketSpec :=
  [{ name := "rgba", type := .color4, optional := true },
    { name := "rgb", type := .color3, optional := true },
    { name := "a", type := .float, optional := true }]

/-- The function that raises a color to a power, leaving its alpha. -/
def powerFunction (l : Language) (name power : String) : String :=
  match l with
  | .wgsl =>
    "fn " ++ name ++ "(color: vec4f) -> vec4f \x7b\n    return vec4f(pow(color.rgb, vec3f(" ++
      power ++ ")), color.a);\n\x7d\n"
  | .glsl =>
    "vec4 " ++ name ++ "(vec4 color) \x7b\n    return vec4(pow(color.rgb, vec3(" ++ power ++
      ")), color.a);\n\x7d\n"

/-- A conversion that takes place under a define. -/
def emitConversion (define function power : String) : Emit FragmentOutput Unit := do
  let l ← Emit.language
  Emit.beginIf (.defined define)
  Emit.modifyDraft (·.addFunction function (powerFunction l function power))
  Emit.push (l.color ++ " = " ++ function ++ "(" ++ l.color ++ ");\n")
  Emit.endIf

/-- Tells the renderer that the material lets things behind it shine through. -/
def needsBlending : Emit FragmentOutput Unit :=
  Emit.modifyLedger fun l => { l with hints := { l.hints with alphaBlending := true } }

/-- The color expression, or nothing when neither color input is connected. -/
def colorOf (rgba rgb a : Slot) : Emit FragmentOutput (Option String) := do
  let vec4 := ValueType.vector4.shaderName (← Emit.language)
  if rgba.connected then
    if a.connected then
      needsBlending
      return some (vec4 ++ "(" ++ rgba.symbol ++ ".rgb, " ++ a.symbol ++ ")")
    else return some rgba.symbol
  else if rgb.connected then
    if a.connected then
      needsBlending
      return some (vec4 ++ "(" ++ rgb.symbol ++ ", " ++ a.symbol ++ ")")
    else return some (vec4 ++ "(" ++ rgb.symbol ++ ", 1.0)")
  else return none

def build : Emit FragmentOutput Unit := do
  Emit.enter .defines
  let gammaDefine ← Emit.freshDefine "CONVERTTOGAMMA"
  let linearDefine ← Emit.freshDefine "CONVERTTOLINEAR"
  Emit.setKind { (← get).kind with gammaDefine, linearDefine }
  let rgba ← Emit.input "rgba"
  let rgb ← Emit.input "rgb"
  let a ← Emit.input "a"
  match ← colorOf rgba rgb a with
  | none => Emit.note "rgba or rgb must be connected"
  | some color => do
    Emit.push ((← Emit.language).color ++ " = " ++ color ++ ";\n")
    emitConversion linearDefine "toLinearSpace" "2.2"
    emitConversion gammaDefine "toGammaSpace" "0.45454545"

def prepareDefines (f : FragmentOutput) (d : DefineSet) : DefineSet :=
  if f.gammaDefine.isEmpty then d
  else (d.putFlag f.gammaDefine f.gamma .misc).putFlag f.linearDefine f.linear .misc

def fields (f : FragmentOutput) : List (String × Json) :=
  [("convertToGammaSpace", .bool f.gamma), ("convertToLinearSpace", .bool f.linear)]

def ofFields? (fields : List (String × Json)) : Option FragmentOutput := do
  let gamma ← Json.fieldOr? fields "convertToGammaSpace" false Json.bool?
  let linear ← Json.fieldOr? fields "convertToLinearSpace" false Json.bool?
  return { gamma, linear }

def constructorCode (f : FragmentOutput) : String :=
  "FragmentOutputBlock \x7b convert_to_gamma_space: " ++ toString f.gamma ++
    ", convert_to_linear_space: " ++ toString f.linear ++ ", ..FragmentOutputBlock::new() \x7d"

end FragmentOutput

end ShaderGraph
