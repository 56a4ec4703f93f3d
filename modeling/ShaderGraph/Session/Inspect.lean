import ShaderGraph.Graph.Typing
import ShaderGraph.Program.DrawTarget
/-!
The state of things as JSON, for tools that look at a material from outside.

Numbers that are not counts are written as text, with the fewest digits that read back. Lists keep
their order.
-/

namespace ShaderGraph.Inspect

def number (n : Nat) : Json := .integer n

def text (s : String) : Json := .string s

def float (x : Number.Single) : Json := .string x.text

def list {α : Type} (f : α → Json) (xs : List α) : Json := .array (xs.map f)

def option {α : Type} (f : α → Json) : Option α → Json
  | some x => f x
  | none => .null

/-! ## Values -/

def value (v : Value) : Json :=
  .object [("type", text v.type.name), ("components", list float v.components),
    ("wgsl", text (v.literal .wgsl)), ("glsl", text (v.literal .glsl)),
    ("debug", text v.describe), ("json", text v.toJson.compact)]

def valueType (t : ValueType) : Json :=
  .object [("compatibleWith", list (fun u => text u.name) (ValueType.all.filter t.compatible)),
    ("concrete", .bool t.isConcrete), ("components", number t.components),
    ("names", list text [t.shaderName .wgsl, t.shaderName .glsl]),
    ("default", text (Value.default t).describe)]

def target (t : Target) : Json :=
  .object [("bits", number t.bits),
    ("intersects", list (fun u => .bool (t.intersects u)) Target.all),
    ("stages", list (fun s => .bool (t.includes s)) [Stage.vertex, Stage.fragment])]

def systemValue (v : SystemValue) : Json :=
  .object [("type", text v.type.name), ("uniform", text v.uniformName)]

/-! ## Defines -/

def flags (f : DirtyFlags) : Json := list (fun c => text c.name) f.toList

def define : DefineValue → Json
  | .flag b => .bool b
  | .count n => .integer n

/-- What changed in a define set. -/
def changes (d : DefineSet) : Json :=
  .object [("isDirty", .bool d.isDirty), ("dirty", flags d.dirty),
    ("lightsDisposed", .bool d.lightsDisposed)]

/-! ## Stages -/

def condition (c : Condition) : Json := text c.directive

def attributeDecl (a : AttributeDecl) : Json :=
  .array [text a.name, text a.type.name, option condition a.condition]

def uniformDecl (u : UniformDecl) : Json := .array [text u.name, text u.type.describe]

def varyingDecl (v : VaryingDecl) : Json := .array [text v.name, text v.type.name]

mutual
def segment : Segment → Json
  | .text s => .array [text "text", text s]
  | .anchor n => .array [text "anchor", number n]
  | .conditional c body otherwise =>
    .array [text "if", condition c, .array (segments body), .array (segments otherwise)]

def segments : List Segment → List Json
  | [] => []
  | s :: rest => segment s :: segments rest
end

def stage (s : CompiledStage) : Json :=
  .object [("template", text s.template), ("attributes", list attributeDecl s.attributes),
    ("anchors", number s.anchors)]

/-! ## Sockets, kinds and blocks -/

def block (b : BlockId) : Json := number b.index

def blocks (l : List BlockId) : Json := list block l

def socket (p : SocketRef) : Json := .array [block p.block, number p.index]

def socketSpec (p : SocketSpec) : Json :=
  .object [("name", text p.name), ("type", text p.type.name), ("optional", .bool p.optional),
    ("target", text p.target.name), ("accepted", list (fun t => text t.name) p.accepted),
    ("excluded", list (fun t => text t.name) p.excluded),
    ("typeSource", option number p.typeSource)]

/-- The settings of a kind as text. -/
def fields (k : Kind) : Json := text (Json.object k.fields).compact

def kind (k : Kind) : Json :=
  .object [("class", text k.className), ("target", text k.target.name),
    ("inputs", list socketSpec k.inputs), ("outputs", list socketSpec k.outputs),
    ("flags", list .bool [k.isUnique, k.isInput, k.isAttribute, k.isFinal, k.isTeleportIn]),
    ("entry", option block k.teleportEntry), ("splice", flags k.spliceCategories),
    ("code", text k.constructorCode), ("fields", fields k)]

/-- The names that a pass gave to a kind. -/
def passNames (k : Kind) : Json :=
  let uniform := match k with
    | .input b => text b.uniformName
    | _ => .null
  let sampler := match k with
    | .texture t => text t.samplerName
    | _ => .null
  let gamma := match k with
    | .fragmentOutput f => text f.gammaDefine
    | _ => .null
  .object [("uniform", uniform), ("sampler", sampler), ("gamma", gamma)]

def autoConnect (a : AutoConnect) : Json :=
  match a.source with
  | .attribute name type => .array [text a.input, text "attribute", text name, text type.name]
  | .system v => .array [text a.input, text "system", text v.name]
  | .uniform name _ => .array [text a.input, text "uniform", text name]

/-- A block that was taken out of a graph. -/
def removed (b : Block) : Json :=
  .object [("name", text b.name),
    ("connected", list .bool (b.inputs.map InputSocket.isConnected ++
      b.outputs.map OutputSocket.isConnected)),
    ("texture", option .bool b.kind.holdsTexture)]

/-- A block with its links and the types at its sockets. -/
def blockState (g : Graph) (b : Block) : Json :=
  let input := fun ((p, i) : InputSocket × Nat) =>
    Json.array [text p.spec.name, option socket p.link, text (g.inputType ⟨b.id, i⟩).name,
      text p.symbol]
  let output := fun ((p, i) : OutputSocket × Nat) =>
    Json.array [text p.spec.name, list socket p.endpoints, text (g.outputType ⟨b.id, i⟩).name,
      text p.symbol]
  .object [("id", block b.id), ("name", text b.name), ("class", text b.className),
    ("target", text b.target.name), ("comments", text b.comments),
    ("inputs", list input b.inputs.zipIdx), ("outputs", list output b.outputs.zipIdx),
    ("built", option (fun s => text s.name) b.builtIn),
    ("entry", option block b.kind.teleportEntry)]

/-- Both orders in which the blocks that the roots reach can be listed. -/
def gathered (g : Graph) (roots : List BlockId) : Json :=
  .array [blocks (g.gather roots), blocks (g.gatherFeedersFirst roots)]

/-! ## Materials -/

def hints (h : Hints) : Json :=
  .object [("alphaBlending", .bool h.alphaBlending), ("alphaTesting", .bool h.alphaTesting),
    ("worldView", .bool h.worldView), ("worldViewProjection", .bool h.worldViewProjection)]

/-- The roles that some block has. -/
def roster (r : Roster) : Json :=
  .object (Role.all.filterMap fun role =>
    match r.blocks role with
    | [] => none
    | found => some (role.name, blocks found))

def compiled (c : CompiledGraph) : Json :=
  .object [("pass", number c.pass.index), ("ok", .bool c.isSuccessful),
    ("errors", list text c.errors), ("vertex", stage c.vertex), ("fragment", stage c.fragment),
    ("varyings", list varyingDecl c.varyings), ("hints", hints c.hints),
    ("lists", roster c.roster)]

def roots (r : Roots) : Json := .array [blocks r.vertex, blocks r.fragment]

def material (m : Material) : Json :=
  .object [("pass", number m.pass.index),
    ("compiled", option (fun c : CompiledGraph => number c.pass.index) m.compiled),
    ("attached", blocks m.attached), ("vertexRoots", blocks m.roots.vertex),
    ("fragmentRoots", blocks m.roots.fragment), ("name", text m.name), ("mode", text m.mode.name),
    ("comment", text m.comment), ("editorData", m.editorData.getD .null),
    ("locations", m.locations.getD .null), ("len", number m.graph.blocks.length),
    ("empty", .bool m.graph.blocks.isEmpty)]

/-! ## Programs -/

def bound : Bound → Json
  | .float x => .array [text "float", float x]
  | .int n => .array [text "int", .integer n]
  | .floats xs => .array [text "floats", list float xs]
  | .matrix m => .array [text "matrix", list float m.toList]
  | .matrices n => .array [text "matrices", number n]
  | .texture url => .array [text "texture", text url]

def bindings (bs : List Binding) : Json := list (fun (n, v) => .array [text n, bound v]) bs

def source (p : ProgramSource) : Json :=
  .object [("language", text p.language.name), ("vertex", text p.vertex),
    ("fragment", text p.fragment), ("defines", text p.defines)]

def created (p : CreatedProgram) : Json :=
  .object [("handle", number p.handle.index), ("source", source p.source),
    ("status", text p.status.describe)]

def installed (p : Installed) : Json :=
  .array [number p.handle.index, number p.pass.index, text p.signature]

def drawTarget (t : DrawTarget) : List (String × Json) :=
  [("active", option installed t.active), ("pending", option installed t.pending),
    ("stats", list number [t.stats.cacheHits, t.stats.splices, t.stats.compiles,
      t.stats.fallbacksApplied]),
    ("defines", text t.defines.signature), ("state", changes t.defines)]

end ShaderGraph.Inspect
