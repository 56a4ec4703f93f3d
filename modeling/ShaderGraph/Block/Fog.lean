import ShaderGraph.Block.Site
/-!
Fog that grows with distance. The block is built into both stages: the vertex stage computes the
vector from the camera and hands it over as a varying, the fragment stage mixes the fog color in.
-/

namespace ShaderGraph

open Number

structure FogBlock where
  /-- Whether a pass has built the fragment part. -/
  built : Bool := false
deriving DecidableEq, Repr

namespace FogBlock

/-- The varying that carries the vector from the camera. -/
def distanceVarying : String := "vFogDistance"

def inputs : List SocketSpec :=
  [{ name := "worldPosition", type := .vector4, target := .vertex },
    { name := "view", type := .matrix, target := .vertex },
    { name := "input", type := .color3, accepted := [.color4, .vector3, .vector4],
      target := .fragment },
    { name := "fogColor", type := .color3, target := .fragment }]

def outputs : List SocketSpec := [{ name := "output", type := .color3, target := .fragment }]

def autoConfigure (free : String → Bool) : List AutoConnect :=
  (if free "view" then [⟨"view", .system .view⟩] else []) ++
    (if free "fogColor" then [⟨"fogColor", .system .fogColor⟩] else [])

/-- The function that computes how much of the color is left. -/
def factorFunction (l : Language) : String :=
  let (head, coefficient, distance) := match l with
    | .wgsl =>
      ("fn calcFogFactor(fogVector: vec3f, params: vec4f) -> f32 \x7b\n", "    var fogCoeff",
        "    let fogDistance")
    | .glsl =>
      ("float calcFogFactor(vec3 fogVector, vec4 params) \x7b\n", "    float fogCoeff",
        "    float fogDistance")
  head ++ coefficient ++ " = 1.0;\n" ++ distance ++ " = length(fogVector);\n" ++
    "    if (params.x == 3.0) \x7b\n" ++
    "        fogCoeff = (params.z - fogDistance) / (params.z - params.y);\n" ++
    "    \x7d else if (params.x == 1.0) \x7b\n" ++
    "        fogCoeff = 1.0 / pow(2.71828, fogDistance * params.w);\n" ++
    "    \x7d else if (params.x == 2.0) \x7b\n" ++
    "        fogCoeff = 1.0 / pow(2.71828, fogDistance * fogDistance * params.w * params.w);\n" ++
    "    \x7d\n" ++
    "    return clamp(fogCoeff, 0.0, 1.0);\n" ++
    "\x7d\n"

/-- The vertex part: writes the varying, unless another fog block has done so. -/
def buildVertex : Emit FogBlock Unit := do
  let worldPosition := (← Emit.input "worldPosition").symbol
  let view := (← Emit.input "view").symbol
  if !(← get).ledger.hasVarying distanceVarying then
    Emit.modifyLedger (·.addVarying { name := distanceVarying, type := .vector3 })
    let reference := (← Emit.language).varyingRef (← Emit.stage) distanceVarying
    Emit.push (reference ++ " = (" ++ view ++ " * " ++ worldPosition ++ ").xyz;\n")

/-- The fragment part: mixes the fog color in under the define `FOG`. -/
def buildFragment : Emit FogBlock Unit := do
  let input ← Emit.input "input"
  let fogColor := (← Emit.input "fogColor").symbol
  let rgb := match input.type with
    | .vector3 | .color3 => input.symbol
    | _ => input.symbol ++ ".rgb"
  let l ← Emit.language
  Emit.modifyDraft (·.addUniform "fogParameters" .vector4)
  Emit.modifyDraft (·.addFunction "calcFogFactor" (factorFunction l))
  let factor ← Emit.freshVariable "fog"
  let call := "calcFogFactor(" ++ l.varyingRef (← Emit.stage) distanceVarying ++ ", " ++
    l.uniformRef "fogParameters" ++ ")"
  Emit.beginIf (.defined "FOG")
  Emit.push (l.declareLet factor .float call)
  Emit.declareOutput "output"
    (factor ++ " * " ++ rgb ++ " + (1.0 - " ++ factor ++ ") * " ++ fogColor)
  Emit.beginElse
  Emit.declareOutput "output" rgb
  Emit.endIf

def build : Emit FogBlock Unit := do
  match ← Emit.stage with
  | .vertex => buildVertex
  | .fragment => do
    Emit.enter .defines
    Emit.enter .bindable
    Emit.enter .fallbacks
    Emit.setKind { built := true }
    buildFragment

def prepareDefines (mesh : Mesh) (scene : Scene) (d : DefineSet) : DefineSet :=
  d.putFlag "FOG" (scene.fog.isSome && mesh.applyFog) .misc

def fallbacks (d : DefineSet) (chain : FallbackChain) : FallbackChain :=
  if d.isDefined "FOG" then chain.add 1 "FOG" else chain

/-- Mode, start, end and density of the fog; zeros without fog. -/
def parameters (scene : Scene) : List Single :=
  match scene.fog with
  | some fog => [fog.mode.code, fog.start, fog.finish, fog.density]
  | none => List.replicate 4 Binary.zero

def bind (b : FogBlock) (scene : Scene) : List Binding :=
  if b.built then [("fogParameters", .floats (parameters scene))] else []

end FogBlock

end ShaderGraph
