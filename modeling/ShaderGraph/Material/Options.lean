import ShaderGraph.Text.Lines
import ShaderGraph.Value.Basic
/-!
What a material is made for and how it is built.
-/

namespace ShaderGraph

/-- What a material is made for. -/
inductive Mode where
  | material
  | postProcess
  | proceduralTexture
  | particle
deriving DecidableEq, Repr, Inhabited

/-- A word that names no choice. -/
inductive UnknownWord where
  | mode (word : String)
  | language (word : String)
deriving DecidableEq, Repr

def UnknownWord.message : UnknownWord → String
  | .mode w => "unknown graph mode: " ++ w
  | .language w => "unknown shader language: " ++ w ++ " (supported: wgsl, glsl)"

namespace Mode

def all : List Mode := [.material, .postProcess, .proceduralTexture, .particle]

def name : Mode → String
  | .material => "Material"
  | .postProcess => "PostProcess"
  | .proceduralTexture => "ProceduralTexture"
  | .particle => "Particle"

def ofName? (s : String) : Option Mode := all.find? fun m => m.name == s

/-- Particles bring their own vertex stage. -/
def allowsEmptyVertex (m : Mode) : Bool := m == .particle

/-- Reads a mode as people write it, in small or capital letters. -/
def parse (s : String) : Except UnknownWord Mode :=
  match Text.lower s with
  | "material" => .ok .material
  | "postprocess" | "post-process" => .ok .postProcess
  | "proceduraltexture" | "procedural-texture" => .ok .proceduralTexture
  | "particle" => .ok .particle
  | other => .error (.mode other)

end Mode

/-- Reads a language as people write it, in small or capital letters. -/
def Language.parse (s : String) : Except UnknownWord Language :=
  match Language.ofTag? (Text.lower s) with
  | some l => .ok l
  | none => .error (.language (Text.lower s))

/-- How a material is built and used. -/
structure Options where
  /-- Whether every block is announced by a comment with its name. -/
  comments : Bool := false
  language : Language := .wgsl
  /-- Whether the old program is used until a new one is ready. -/
  hotSwap : Bool := true
  /-- Whether inputs are sent only when the program changed. -/
  frozen : Bool := false
  /-- Whether the wishes of blocks for their free inputs are fulfilled. -/
  autoConfigure : Bool := true
deriving DecidableEq, Repr, Inhabited

namespace Options

def toJson (o : Options) : Json :=
  .object
    [("emitComments", .bool o.comments), ("language", .string o.language.tag),
      ("allowShaderHotSwapping", .bool o.hotSwap), ("frozen", .bool o.frozen),
      ("autoConfigure", .bool o.autoConfigure)]

/-- The names of the options in the order in which an array lists them. -/
def keys : List String :=
  ["emitComments", "language", "allowShaderHotSwapping", "frozen", "autoConfigure"]

def ofFields? (fields : List (String × Json)) : Option Options := do
  let comments ← Json.fieldOr? fields "emitComments" false Json.bool?
  let language ← Json.fieldOr? fields "language" .wgsl fun v => v.choice? >>= Language.ofTag?
  let hotSwap ← Json.fieldOr? fields "allowShaderHotSwapping" true Json.bool?
  let frozen ← Json.fieldOr? fields "frozen" false Json.bool?
  let autoConfigure ← Json.fieldOr? fields "autoConfigure" true Json.bool?
  return { comments, language, hotSwap, frozen, autoConfigure }

/-- Reads options from an object, or from an array that may end early. -/
def ofJson? : Json → Option Options
  | .object fields => ofFields? fields
  | .array items => if items.length ≤ keys.length then ofFields? (keys.zip items) else none
  | _ => none

end Options

end ShaderGraph
