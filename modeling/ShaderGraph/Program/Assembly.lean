import ShaderGraph.Program.Resources
import ShaderGraph.Program.Source
/-!
Assembling the text of a program from the result of a pass and one define set.

Both stages have the same layout of resources: the uniforms are binding 0 of group 0, and texture
`k` is binding `2 k` of group 1 with its sampler behind it.
-/

namespace ShaderGraph

/-- The texts spliced into each stage. -/
structure StageFills where
  vertex : Fills := []
  fragment : Fills := []
deriving DecidableEq, Repr

namespace StageFills

def isEmpty (f : StageFills) : Bool := f.vertex.isEmpty && f.fragment.isEmpty

/-- Fills an anchor of the vertex stage. -/
def fillVertex (f : StageFills) (anchor : Nat) (text : String) : StageFills :=
  { f with vertex := Keyed.insert anchor text f.vertex }

/-- Takes over what a block splices in. -/
def splice (f : StageFills) (kind : Kind) (defines : DefineSet) (l : Language) : StageFills :=
  match kind.splice defines l with
  | some (anchor, text) => f.fillVertex anchor text
  | none => f

end StageFills

namespace Assembly

/-- A value of zeros. -/
def zero (l : Language) (t : ValueType) : String :=
  match l, t with
  | _, .int => "0"
  | .wgsl, .matrix => "mat4x4f()"
  | _, _ => if t.components = 1 then "0.0" else t.shaderName l ++ "(0.0)"

/-- Indents every line that is not empty, and ends each. -/
def indented (text : String) : String :=
  Text.concat ((Text.lines text).map fun line =>
    if line.isEmpty then "\n" else "    " ++ line ++ "\n")

/-- The constants and functions of a stage. -/
def declarations (s : CompiledStage) : String :=
  Text.concat s.constants ++ (if s.constants.isEmpty then "" else "\n") ++
    Text.concat (s.functions.map (· ++ "\n"))

/-- Texts of the items of a list, each with its place. -/
def numbered {α : Type} (items : List α) (f : Nat → α → String) : String :=
  Text.concat (items.zipIdx.map fun (x, i) => f i x)

/-- The varyings that a define set leaves. -/
def activeVaryings (varyings : List VaryingDecl) (defines : DefineSet) : List VaryingDecl :=
  varyings.filter fun v => v.condition.all (·.holds defines)

/-! ## WGSL -/

def wgslUniform (u : UniformDecl) : String :=
  let type := match u.type with
    | .value t => t.shaderName .wgsl
    | .matrixArray n => "array<mat4x4f, " ++ toString n ++ ">"
  "    " ++ u.name ++ ": " ++ type ++ ",\n"

def wgslTexture (k : Nat) (name : String) : String :=
  "@group(1) @binding(" ++ toString (2 * k) ++ ") var " ++ name ++ ": texture_2d<f32>;\n" ++
    "@group(1) @binding(" ++ toString (2 * k + 1) ++ ") var " ++ name ++ "Sampler: sampler;\n"

def wgslResources (r : Resources) : String :=
  (if r.uniforms.isEmpty then ""
    else "struct Uniforms \x7b\n" ++ Text.concat (r.uniforms.map wgslUniform) ++
      "\x7d;\n\n@group(0) @binding(0) var<uniform> uniforms: Uniforms;\n\n") ++
    numbered r.samplers wgslTexture ++ (if r.samplers.isEmpty then "" else "\n")

/-- The structure by which the stages are connected; integers are not interpolated. -/
def wgslVaryings (varyings : List VaryingDecl) : String :=
  "struct VertexOutputs \x7b\n    @builtin(position) position: vec4f,\n" ++
    numbered varyings (fun i v =>
      "    @location(" ++ toString i ++ ")" ++
        (if v.type = .int then " @interpolate(flat)" else "") ++ " " ++ v.name ++ ": " ++
        v.type.shaderName .wgsl ++ ",\n") ++
    "\x7d;\n\n"

def wgslAttributes (active : List AttributeDecl) : String :=
  if active.isEmpty then ""
  else "struct VertexInputs \x7b\n" ++
    numbered active (fun i a =>
      "    @location(" ++ toString i ++ ") " ++ a.name ++ ": " ++ a.type.shaderName .wgsl ++
        ",\n") ++
    "\x7d;\n\n"

/-- Lets the name of an attribute stand for its value, or for zeros if the vertex data lacks it. -/
def wgslAttributeValue (defines : DefineSet) (a : AttributeDecl) : String :=
  if a.condition.all (·.holds defines) then
    "    let " ++ a.name ++ " = vertexInputs." ++ a.name ++ ";\n"
  else "    let " ++ a.name ++ " = " ++ zero .wgsl a.type ++ ";\n"

def wgslVertex (stage : CompiledStage) (defines : DefineSet) (r : Resources)
    (varyings : List VaryingDecl) (body : String) : String :=
  let active := r.active defines
  wgslResources r ++ wgslAttributes active ++ wgslVaryings varyings ++ declarations stage ++
    "@vertex\n" ++
    (if active.isEmpty then "fn main() -> VertexOutputs \x7b\n"
      else "fn main(vertexInputs: VertexInputs) -> VertexOutputs \x7b\n") ++
    "    var vertexOutputs: VertexOutputs;\n" ++
    Text.concat (r.attributes.map (wgslAttributeValue defines)) ++ indented body ++
    "    return vertexOutputs;\n\x7d\n"

def wgslFragment (stage : CompiledStage) (r : Resources) (varyings : List VaryingDecl)
    (body : String) : String :=
  wgslResources r ++ wgslVaryings varyings ++
    "struct FragmentOutputs \x7b\n    @location(0) color: vec4f,\n\x7d;\n\n" ++
    declarations stage ++
    "@fragment\nfn main(fragmentInputs: VertexOutputs) -> FragmentOutputs \x7b\n" ++
    "    var fragmentOutputs: FragmentOutputs;\n" ++ indented body ++
    "    return fragmentOutputs;\n\x7d\n"

/-! ## GLSL -/

def glslUniform (u : UniformDecl) : String :=
  match u.type with
  | .value t => "    " ++ t.shaderName .glsl ++ " " ++ u.name ++ ";\n"
  | .matrixArray n => "    mat4 " ++ u.name ++ "[" ++ toString n ++ "];\n"

def glslTexture (k : Nat) (name : String) : String :=
  "layout(set = 1, binding = " ++ toString (2 * k) ++ ") uniform texture2D " ++ name ++ ";\n" ++
    "layout(set = 1, binding = " ++ toString (2 * k + 1) ++ ") uniform sampler " ++ name ++
    "Sampler;\n"

def glslHeader (defines : DefineSet) (r : Resources) : String :=
  "#version 450\n" ++ defines.signature ++ "\n" ++
    (if r.uniforms.isEmpty then ""
      else "layout(set = 0, binding = 0) uniform Uniforms \x7b\n" ++
        Text.concat (r.uniforms.map glslUniform) ++ "\x7d;\n\n") ++
    numbered r.samplers glslTexture ++ (if r.samplers.isEmpty then "" else "\n")

def glslVaryings (direction : String) (varyings : List VaryingDecl) : String :=
  numbered varyings fun i v =>
    "layout(location = " ++ toString i ++ ") " ++ (if v.type = .int then "flat " else "") ++
      direction ++ " " ++ v.type.shaderName .glsl ++ " " ++ v.name ++ ";\n"

def glslVertex (stage : CompiledStage) (defines : DefineSet) (r : Resources)
    (varyings : List VaryingDecl) (body : String) : String :=
  glslHeader defines r ++
    numbered (r.active defines) (fun i a =>
      "layout(location = " ++ toString i ++ ") in " ++ a.type.shaderName .glsl ++ " " ++ a.name ++
        ";\n") ++
    glslVaryings "out" varyings ++ "\n" ++ declarations stage ++ "void main() \x7b\n" ++
    Text.concat ((r.inactive defines).map fun a =>
      "    " ++ a.type.shaderName .glsl ++ " " ++ a.name ++ " = " ++ zero .glsl a.type ++ ";\n") ++
    indented body ++ "\x7d\n"

def glslFragment (stage : CompiledStage) (defines : DefineSet) (r : Resources)
    (varyings : List VaryingDecl) (body : String) : String :=
  glslHeader defines r ++ glslVaryings "in" varyings ++
    "layout(location = 0) out vec4 glFragColor;\n\n" ++ declarations stage ++
    "void main() \x7b\n" ++ indented body ++ "\x7d\n"

end Assembly

open Assembly in
/-- The program of a pass for one define set. -/
def CompiledGraph.assemble (c : CompiledGraph) (defines : DefineSet) (fills : StageFills)
    (r : Resources) : ProgramSource :=
  let varyings := activeVaryings c.varyings defines
  let vertex := Segment.renders defines fills.vertex c.vertex.body
  let fragment := Segment.renders defines fills.fragment c.fragment.body
  { language := c.language
    vertex := match c.language with
      | .wgsl => wgslVertex c.vertex defines r varyings vertex
      | .glsl => glslVertex c.vertex defines r varyings vertex
    fragment := match c.language with
      | .wgsl => wgslFragment c.fragment r varyings fragment
      | .glsl => glslFragment c.fragment defines r varyings fragment
    defines := defines.signature }

end ShaderGraph
