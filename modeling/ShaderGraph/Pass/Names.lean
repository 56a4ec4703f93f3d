import ShaderGraph.Keyed
/-!
Names that a pass hands out.

A variable name is made from a wish: only its letters and underscores stay. The first wish for a
name gets it as it is, unless it is a word that the generated program uses itself; every later one
gets a number appended. Names of defines always carry a number.
-/

namespace ShaderGraph

/-- Words that never become a variable by themselves: they name parts of the generated program or
are keywords of a shading language. -/
def reservedNames : List String :=
  ["output", "texture", "sampler", "uniforms", "vertexInputs", "vertexOutputs", "fragmentInputs",
    "fragmentOutputs", "main", "fn", "let", "var", "const", "struct", "return", "if", "else",
    "for", "while", "loop", "true", "false", "in", "out", "uniform", "float", "int", "bool",
    "f32", "i32", "vec2", "vec3", "vec4", "mat4", "vec2f", "vec3f", "vec4f", "mat4x4f"]

/-- Characters that stay in a variable name. -/
def isNameChar (c : Char) : Bool := c.isAlpha || c == '_'

/-- What is left of a wished name. -/
def cleanName (wish : String) : String :=
  let kept := wish.toList.filter isNameChar
  if kept.isEmpty then "tmp" else String.ofList kept

/-- The names handed out so far, each with its last number. -/
structure NameTable where
  symbols : List (String × Nat) := []
  defines : List (String × Nat) := []
deriving DecidableEq, Repr, Inhabited

namespace NameTable

/-- Hands out a variable name. -/
def freshVariable (t : NameTable) (wish : String) : String × NameTable :=
  let name := cleanName wish
  match Keyed.get? name t.symbols with
  | none =>
    (if reservedNames.contains name then name ++ "0" else name,
      { t with symbols := Keyed.insert name 0 t.symbols })
  | some n =>
    (name ++ toString (n + 1), { t with symbols := Keyed.insert name (n + 1) t.symbols })

/-- Keeps a name from being handed out without a number. -/
def exclude (t : NameTable) (name : String) : NameTable :=
  match Keyed.get? name t.symbols with
  | none => { t with symbols := Keyed.insert name 0 t.symbols }
  | some _ => t

/-- Hands out the name of a define. -/
def freshDefine (t : NameTable) (wish : String) : String × NameTable :=
  let n := (Keyed.get? wish t.defines).getD 0
  (wish ++ toString n, { t with defines := Keyed.insert wish (n + 1) t.defines })

end NameTable

end ShaderGraph
