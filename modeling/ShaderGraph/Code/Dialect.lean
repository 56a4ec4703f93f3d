import ShaderGraph.Stage
import ShaderGraph.Value.Type
/-!
How the two shading languages spell references, declarations and conversions.
-/

namespace ShaderGraph.Language

/-- A uniform inside an expression. -/
def uniformRef (l : Language) (name : String) : String :=
  match l with
  | .wgsl => "uniforms." ++ name
  | .glsl => name

def attributeRef (l : Language) (name : String) : String :=
  match l with
  | .wgsl => "vertexInputs." ++ name
  | .glsl => name

/-- A varying as it is written in the vertex stage and read in the fragment stage. -/
def varyingRef (l : Language) (stage : Stage) (name : String) : String :=
  match l, stage with
  | .wgsl, .vertex => "vertexOutputs." ++ name
  | .wgsl, .fragment => "fragmentInputs." ++ name
  | .glsl, _ => name

/-- Where the vertex stage puts the position. -/
def position : Language → String
  | .wgsl => "vertexOutputs.position"
  | .glsl => "gl_Position"

/-- Where the fragment stage puts the color. -/
def color : Language → String
  | .wgsl => "fragmentOutputs.color"
  | .glsl => "glFragColor"

/-- Reads a texture. The vertex stage has no derivatives and names the level itself. -/
def sample (l : Language) (stage : Stage) (name uv : String) : String :=
  match l, stage with
  | .wgsl, .fragment => "textureSample(" ++ name ++ ", " ++ name ++ "Sampler, " ++ uv ++ ")"
  | .wgsl, .vertex => "textureSampleLevel(" ++ name ++ ", " ++ name ++ "Sampler, " ++ uv ++ ", 0.0)"
  | .glsl, .fragment => "texture(sampler2D(" ++ name ++ ", " ++ name ++ "Sampler), " ++ uv ++ ")"
  | .glsl, .vertex =>
    "textureLod(sampler2D(" ++ name ++ ", " ++ name ++ "Sampler), " ++ uv ++ ", 0.0)"

/-- A value that is written once. -/
def declareLet (l : Language) (name : String) (type : ValueType) (expr : String) : String :=
  match l with
  | .wgsl => "let " ++ name ++ ": " ++ type.shaderName l ++ " = " ++ expr ++ ";\n"
  | .glsl => type.shaderName l ++ " " ++ name ++ " = " ++ expr ++ ";\n"

/-- A value that is written again later. -/
def declareVar (l : Language) (name : String) (type : ValueType) (expr : String) : String :=
  match l with
  | .wgsl => "var " ++ name ++ ": " ++ type.shaderName l ++ " = " ++ expr ++ ";\n"
  | .glsl => type.shaderName l ++ " " ++ name ++ " = " ++ expr ++ ";\n"

/-- A constant outside all functions. -/
def declareConst (l : Language) (name : String) (type : ValueType) (literal : String) : String :=
  match l with
  | .wgsl => "const " ++ name ++ ": " ++ type.shaderName l ++ " = " ++ literal ++ ";\n"
  | .glsl => "const " ++ type.shaderName l ++ " " ++ name ++ " = " ++ literal ++ ";\n"

/-- Repeats a scalar in every component of a type. -/
def splat (l : Language) (expr : String) (type : ValueType) : String :=
  if type.components = 1 then expr else type.shaderName l ++ "(" ++ expr ++ ")"

def castFloat (l : Language) (expr : String) : String :=
  match l with
  | .wgsl => "f32(" ++ expr ++ ")"
  | .glsl => "float(" ++ expr ++ ")"

def castInt (l : Language) (expr : String) : String :=
  match l with
  | .wgsl => "i32(" ++ expr ++ ")"
  | .glsl => "int(" ++ expr ++ ")"

/-- An expression of one type turned into another, where that needs no decision: nothing for
compatible types, a cast for integers, a repeated scalar for wider types. -/
def coerce (l : Language) (expr : String) (source target : ValueType) : Option String :=
  if source.compatible target then some expr
  else
    let wide := 1 < target.components && target != .matrix
    match source, target with
    | .int, .float => some (l.castFloat expr)
    | .float, t => if wide then some (l.splat expr t) else none
    | .int, t => if wide then some (l.splat (l.castFloat expr) t) else none
    | _, _ => none

end ShaderGraph.Language
