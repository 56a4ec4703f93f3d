import ShaderGraph.Block.Site
/-!
Leaves of a graph: vertex attributes, uniforms, constants and values that the renderer knows.
-/

namespace ShaderGraph

open Number

/-- Where the value of an input block comes from. -/
inductive InputSource where
  | attribute (name : String)
  | uniform
  | constant
  | system (value : SystemValue)
deriving DecidableEq, Repr

/-- How the value of an input block changes from frame to frame. -/
inductive Animation where
  | none
  | time
deriving DecidableEq, Repr

namespace Animation

def name : Animation → String
  | .none => "None"
  | .time => "Time"

def ofName? : String → Option Animation
  | "None" => some .none
  | "Time" => some .time
  | _ => Option.none

end Animation

/-- The condition under which the vertex data has an attribute; attributes of other names are
always there. -/
def attributeCondition : String → Option Condition
  | "normal" => some (.defined "NORMAL")
  | "tangent" => some (.defined "TANGENT")
  | "color" => some (.defined "VERTEXCOLOR_NME")
  | "uv" => some (.defined "UV1")
  | "uv2" => some (.defined "UV2")
  | "uv3" => some (.defined "UV3")
  | "uv4" => some (.defined "UV4")
  | "uv5" => some (.defined "UV5")
  | "uv6" => some (.defined "UV6")
  | "matricesIndices" | "matricesWeights" => some (.greaterThan "NUM_BONE_INFLUENCERS" 0)
  | _ => none

/-- A leaf of a graph. -/
structure InputBlock where
  source : InputSource
  type : ValueType
  value : Option Value := none
  animation : Animation := .none
  /-- The uniform that the last pass gave to the block. -/
  uniformName : String := ""
deriving DecidableEq, Repr

namespace InputBlock

def ofAttribute (name : String) (type : ValueType) : InputBlock :=
  { source := .attribute name, type }

def ofUniform (v : Value) : InputBlock := { source := .uniform, type := v.type, value := some v }

def ofConstant (v : Value) : InputBlock := { source := .constant, type := v.type, value := some v }

def ofSystem (v : SystemValue) : InputBlock := { source := .system v, type := v.type }

def animatedWithTime (b : InputBlock) : InputBlock := { b with animation := .time }

/-- The name and the block that serve a wish. -/
def ofAutoSource : AutoSource → String × InputBlock
  | .attribute name type => (name, ofAttribute name type)
  | .system v => (v.blockName, ofSystem v)
  | .uniform name v => (name, ofUniform v)

/-- Whether the block serves a wish already. A plain uniform is known by the name of its block. -/
def satisfies (b : InputBlock) (blockName : String) (wish : AutoSource) : Bool :=
  match b.source, wish with
  | .attribute name, .attribute wanted _ => name == wanted
  | .system v, .system wanted => v == wanted
  | .uniform, .uniform name _ => blockName == name
  | _, _ => false

def currentValue (b : InputBlock) : Value := b.value.getD (Value.default b.type)

def isAttribute (b : InputBlock) : Bool :=
  match b.source with
  | .attribute _ => true
  | _ => false

/-- Attributes exist in the vertex stage only. -/
def target (b : InputBlock) : Target := if b.isAttribute then .vertex else .vertexAndFragment

def outputs (b : InputBlock) : List SocketSpec := [{ name := "output", type := b.type }]

/-- The start of a pass: the uniform is given up, and the name of an attribute is kept away from
variables. -/
def start (b : InputBlock) (ledger : Ledger) : InputBlock × Ledger :=
  ({ b with uniformName := "" },
    match b.source with
    | .attribute name => ledger.exclude name
    | _ => ledger)

/-- Declares an attribute, always in the vertex stage. -/
def emitAttribute (name : String) : Emit InputBlock Unit := do
  let decl : AttributeDecl := ⟨name, (← get).kind.type, attributeCondition name⟩
  modify fun s =>
    match s.vertexDraft with
    | some v => { s with vertexDraft := some (v.addAttribute decl) }
    | none => { s with draft := s.draft.addAttribute decl }
  Emit.setSymbol "output" name

/-- Declares a constant; it keeps its name when it is built for the second stage. -/
def emitConstant (current : String) : Emit InputBlock Unit := do
  let s ← get
  let name ← if current.isEmpty then Emit.freshVariable s.blockName else pure current
  let literal := s.kind.currentValue.literal s.draft.language
  Emit.modifyDraft (·.addConstant name s.kind.type literal)
  Emit.setSymbol "output" name

/-- Declares a uniform; it keeps its name when it is built for the second stage. -/
def emitUniform (wish : String) : Emit InputBlock Unit := do
  let b := (← get).kind
  let name ← if b.uniformName.isEmpty then Emit.freshVariable wish else pure b.uniformName
  Emit.setKind { b with uniformName := name }
  Emit.modifyDraft (·.addUniform name b.type)
  Emit.setSymbol "output" ((← Emit.language).uniformRef name)
  Emit.enter .input
  if b.animation ≠ .none then
    Emit.enter .animated
    Emit.enter .forcedBindable

/-- What the renderer must prepare for a system value. -/
def hint (v : SystemValue) (l : Ledger) : Ledger :=
  match v with
  | .worldView => { l with hints := { l.hints with worldView := true } }
  | .worldViewProjection => { l with hints := { l.hints with worldViewProjection := true } }
  | _ => l

def build : Emit InputBlock Unit := do
  let current := (← Emit.output "output").symbol
  match (← get).kind.source with
  | .attribute name => emitAttribute name
  | .constant => emitConstant current
  | .uniform => emitUniform ("u_" ++ (← get).blockName)
  | .system v => do
    emitUniform v.uniformName
    Emit.modifyLedger (hint v)

/-- Moves an animated value on by a hundredth, times the speed of the scene. What is not a scalar
starts from zero. -/
def animate (b : InputBlock) (scene : Scene) : InputBlock :=
  match b.animation with
  | .none => b
  | .time =>
    let current := match b.currentValue with
      | .float x => x
      | _ => Binary.zero
    { b with value := some (.float (current + scene.animationRatio * Single.ratio 1 100)) }

/-- The values that the block sends to the program. -/
def bind (b : InputBlock) (mesh : Mesh) (scene : Scene) : List Binding :=
  if b.uniformName.isEmpty then []
  else match b.source with
    | .uniform => [(b.uniformName, b.currentValue.bound)]
    | .system v => [(b.uniformName, (v.value mesh scene).bound)]
    | _ => []

/-! ## In documents and in exported code -/

def sourceFields : InputSource → List (String × Json)
  | .attribute name => [("attributeName", .string name), ("mode", .string "attribute")]
  | .uniform => [("mode", .string "uniform")]
  | .constant => [("mode", .string "constant")]
  | .system v => [("mode", .string "systemValue"), ("systemValue", .string v.name)]

def fields (b : InputBlock) : List (String × Json) :=
  Json.sorted (sourceFields b.source ++ [("pointType", .string b.type.name)] ++
    b.value.toList.map (fun v => ("value", v.toJson)) ++
    [("animationType", .string b.animation.name)])

/-- The kinds of sources in the order in which documents number them. -/
def modes : List String := ["attribute", "uniform", "constant", "systemValue"]

/-- A system value by name. Inside a source, an empty object may stand for a choice without
contents as well. -/
def systemValue? : Json → Option SystemValue
  | .object [(name, .object [])] => SystemValue.ofName? name
  | v => v.choice? >>= SystemValue.ofName?

/-- The source of a given mode, its details taken from the fields around it. -/
def sourceOfMode? (mode : String) (fields : List (String × Json)) : Option InputSource :=
  match mode with
  | "attribute" => ((Json.field? fields "attributeName").bind Json.string?).map .attribute
  | "uniform" => some .uniform
  | "constant" => some .constant
  | "systemValue" => ((Json.field? fields "systemValue").bind systemValue?).map .system
  | _ => none

/-- The source described by the fields of a block. The mode is a name or its number. -/
def sourceOfFields? (fields : List (String × Json)) : Option InputSource := do
  match ← Json.field? fields "mode" with
  | .string mode => sourceOfMode? mode fields
  | .integer n => sourceOfMode? (← if 0 ≤ n then modes[n.toNat]? else none) fields
  | _ => none

/-- The source described by a value of its own: an object, or an array of the mode and its
detail. -/
def sourceOfJson? : Json → Option InputSource
  | .object fields => do
    match ← Json.field? fields "mode" with
    | .string mode => sourceOfMode? mode fields
    | _ => none
  | .array [.string "attribute", name] => name.string?.map .attribute
  | .array [.string "uniform"] => some .uniform
  | .array [.string "constant"] => some .constant
  | .array [.string "systemValue", v] => (systemValue? v).map .system
  | _ => none

def ofFields? (fields : List (String × Json)) : Option InputBlock := do
  let source ← sourceOfFields? fields
  let type ← (← Json.field? fields "pointType").choice? >>= ValueType.ofName?
  let value ← Json.optionalField? fields "value" Value.ofJson?
  let animation ← Json.fieldOr? fields "animationType" Animation.none
    fun v => v.choice? >>= Animation.ofName?
  return { source, type, value, animation }

/-- The expression that makes the block in exported code. -/
def constructorCode (b : InputBlock) : String :=
  let base := match b.source with
    | .attribute name =>
      "InputBlock::attribute(" ++ Text.quote name ++ ", ConnectionPointType::" ++ b.type.name ++ ")"
    | .uniform => "InputBlock::uniform(InputValue::" ++ b.currentValue.describe ++ ")"
    | .constant => "InputBlock::constant(InputValue::" ++ b.currentValue.describe ++ ")"
    | .system v => "InputBlock::system(SystemValue::" ++ v.name ++ ")"
  match b.animation with
  | .time => base ++ ".animated_with_time()"
  | .none => base

end InputBlock

end ShaderGraph
