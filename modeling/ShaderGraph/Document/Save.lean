import ShaderGraph.Document.Basic
import ShaderGraph.Material.Basic
/-!
Saving a material as a document. The numbers of the document are those of the blocks.
-/

namespace ShaderGraph

namespace Graph

/-- The link of an input, if what feeds it is there. -/
def linkEntry? (g : Graph) (input : InputSocket) : Option LinkEntry := do
  let link ← input.link
  let producer ← g.get? link.block
  let output ← producer.outputs[link.index]?
  return ⟨input.spec.name, link.block.index, output.spec.name⟩

def blockEntry (g : Graph) (b : Block) : BlockEntry :=
  { id := b.id.index, tag := b.className, name := b.name, comments := b.comments
    links := b.inputs.filterMap g.linkEntry?
    fields := b.kind.fields }

end Graph

namespace Material

/-- The order in which blocks are saved: those that the roots reach, then those that were attached,
then the rest in the order in which they were added. -/
def savedOrder (m : Material) : List BlockId :=
  (m.attached ++ m.graph.ids).foldl (fun ids id => pushNew id ids) (m.graph.gather m.roots.all)

/-- The material as a document. -/
def toDocument (m : Material) : Document :=
  { name := m.name, mode := m.mode, comment := m.comment
    blocks := (m.savedOrder.filterMap m.graph.get?).map m.graph.blockEntry
    outputs := m.roots.all.map BlockId.index
    locations := m.locations
    editorData := m.editorData }

/-- The text of the document. -/
def save (m : Material) : String := m.toDocument.toJson.pretty

end Material

end ShaderGraph
