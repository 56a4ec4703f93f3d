import ShaderGraph.Graph.Basic
/-!
The types that flow through a graph.

An output may follow the inputs of its block, and an input takes the type of what feeds it, so a
type may be found only several blocks away. The search goes from block to feeding block; since no
block feeds itself, as many steps as there are blocks are enough.
-/

namespace ShaderGraph.Graph

/-- The type seen by an input, given the types of outputs. -/
def inputTypeBy (g : Graph) (outputType : SocketRef → ValueType) (p : SocketRef) : ValueType :=
  match (g.get? p.block).bind fun b => b.inputs[p.index]? with
  | none => .float
  | some input =>
    match input.link with
    | some source => outputType source
    | none => if input.spec.type.isConcrete then input.spec.type else .float

/-- The type of an output, looked for through at most `steps` blocks. -/
def outputTypeWithin (g : Graph) : Nat → SocketRef → ValueType
  | 0, _ => .float
  | steps + 1, p =>
    match g.get? p.block with
    | none => .float
    | some b =>
      match b.outputs[p.index]? with
      | none => .float
      | some output =>
        let inputType := g.inputTypeBy (outputTypeWithin g steps)
        match output.spec.type with
        | .basedOnInput =>
          match b.kind.teleportEntry with
          | some entry => inputType ⟨entry, 0⟩
          | none =>
            let types := (List.range b.inputs.length).map fun i => inputType ⟨p.block, i⟩
            match b.kind.resolveOutput types with
            | some t => t
            | none => (output.spec.typeSource.bind fun i => types[i]?).getD .float
        | .autoDetect => .float
        | t => t

/-- The type of the values that an output produces. -/
def outputType (g : Graph) (p : SocketRef) : ValueType := g.outputTypeWithin g.blocks.length p

/-- The type of the values that an input sees: that of its producer, or its own. -/
def inputType (g : Graph) (p : SocketRef) : ValueType := g.inputTypeBy g.outputType p

end ShaderGraph.Graph
