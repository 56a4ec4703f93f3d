import ShaderGraph.Graph.Basic
import ShaderGraph.Text.Lines
/-!
Why a material cannot be built or used.
-/

namespace ShaderGraph

/-- Why a material cannot be built or used. -/
inductive MaterialError where
  | missingVertexOutput
  | missingFragmentOutput
  /-- A second block of a kind that a material may have once. -/
  | duplicateUniqueBlock (className block : String)
  /-- The problems that a pass found while it wrote code. -/
  | buildFailed (errors : List String)
  | notBuilt
  | graph (cause : GraphError)
  | code (cause : CodeError)
deriving DecidableEq, Repr

def MaterialError.message : MaterialError → String
  | .missingVertexOutput => "material must have at least one vertex output"
  | .missingFragmentOutput => "material must have at least one fragment output"
  | .duplicateUniqueBlock cls block =>
    "block " ++ block ++ " is a " ++ cls ++ ", which may only appear once per material"
  | .buildFailed errors =>
    "material build failed (" ++ toString errors.length ++ " error(s)):" ++
      Text.concat (errors.map ("\n- " ++ ·))
  | .notBuilt => "material has not been built"
  | .graph cause => cause.message
  | .code cause => cause.message

end ShaderGraph
