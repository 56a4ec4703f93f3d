import ShaderGraph.Export.Names
import ShaderGraph.Material.Basic
/-!
Exporting a material as code that makes it again.

The code is a list of statements: a new material, its blocks with the producers first, their links
and teleports, and the roots. `Statement.text` writes a statement.
-/

namespace ShaderGraph

namespace Export

/-- A statement of exported code. -/
inductive Statement where
  | create (name : String)
  | setMode (mode : Mode)
  | addBlock (symbol : String) (comments name : String) (kind : Kind)
  | setTeleport (out entry : String)
  | connect (producer output consumer input : String)
  | addRoot (symbol : String)
  | build
deriving Repr

/-- A statement as text, with the comments of a block in front of it. -/
def Statement.text : Statement → String
  | .create name => "let mut material = NodeMaterial::new(" ++ Text.quote name ++ ");\n"
  | .setMode mode => "material.mode = GraphMode::" ++ mode.name ++ ";\n"
  | .addBlock symbol comments name kind =>
    Text.concat ((Text.lines comments).map fun line => "// " ++ line ++ "\n") ++
      "let " ++ symbol ++ " = material.add_block(" ++ Text.quote name ++ ", " ++
      kind.constructorCode ++ ");\n"
  | .setTeleport out entry =>
    "material.set_teleport_entry(" ++ out ++ ", Some(" ++ entry ++ "))?;\n"
  | .connect producer output consumer input =>
    "material.connect(" ++ producer ++ ", " ++ Text.quote output ++ ", " ++ consumer ++ ", " ++
      Text.quote input ++ ")?;\n"
  | .addRoot symbol => "material.add_output_node(" ++ symbol ++ ")?;\n"
  | .build => "material.build()?;\n"

/-- The variables of blocks. -/
abbrev Symbols := List (BlockId × String)

/-- Chooses a variable for every block, one after another. -/
def nameBlocks (taken : List String) : List Block → Symbols
  | [] => []
  | b :: rest =>
    let symbol := variableFor b.name taken
    (b.id, symbol) :: nameBlocks (symbol :: taken) rest

/-- The statement that restores the link of an input. -/
def linkStatement? (g : Graph) (symbols : Symbols) (consumer : String) (input : InputSocket) :
    Option Statement := do
  let link ← input.link
  let producer ← symbols.lookup link.block
  let block ← g.get? link.block
  let output ← block.outputs[link.index]?
  return .connect producer output.spec.name consumer input.spec.name

/-- The statements that restore the teleport and the links of a block. -/
def linkStatements (g : Graph) (symbols : Symbols) (b : Block) : List Statement :=
  match symbols.lookup b.id with
  | none => []
  | some consumer =>
    let entry := b.kind.teleportEntry.bind fun entry => symbols.lookup entry
    (entry.toList.map fun entry => .setTeleport consumer entry) ++
      b.inputs.filterMap (linkStatement? g symbols consumer)

/-- The statements that make a material again, in sections. -/
structure Listing where
  header : List Statement
  blocks : List Statement
  links : List Statement
  roots : List Statement
deriving Repr

namespace Listing

/-- All statements in order. -/
def statements (l : Listing) : List Statement :=
  l.header ++ l.blocks ++ l.links ++ l.roots ++ [.build]

def text (l : Listing) : String :=
  let lines (s : List Statement) := Text.concat (s.map Statement.text)
  lines l.header ++ "\n// blocks\n" ++ lines l.blocks ++ "\n// connections\n" ++ lines l.links ++
    "\n// output nodes\n" ++ lines l.roots ++ "\n" ++ Statement.build.text

end Listing

end Export

namespace Material

/-- The order in which blocks are made: those that the roots reach, feeding blocks first, then the
rest in the order in which they were added. -/
def exportOrder (m : Material) : List Block :=
  let reached := m.graph.gatherFeedersFirst m.roots.all
  (reached ++ m.graph.ids.filter fun id => id ∉ reached).filterMap m.graph.get?

/-- The material as code. -/
def listing (m : Material) : Export.Listing :=
  let order := m.exportOrder
  let symbols := Export.nameBlocks ["material"] order
  { header := .create m.name :: (if m.mode = .material then [] else [.setMode m.mode])
    blocks := order.filterMap fun b =>
      (symbols.lookup b.id).map fun symbol => .addBlock symbol b.comments b.name b.kind
    links := order.flatMap (Export.linkStatements m.graph symbols)
    roots := (m.roots.all.filterMap fun id => symbols.lookup id).map .addRoot }

end Material

end ShaderGraph
