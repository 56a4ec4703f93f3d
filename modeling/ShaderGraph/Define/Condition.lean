import ShaderGraph.Define.Set
/-!
Conditions on a define set, as they stand in conditional code.
-/

namespace ShaderGraph

/-- Decides whether a region of code, an attribute or a varying is present. -/
inductive Condition where
  | defined (name : String)
  | notDefined (name : String)
  | greaterThan (name : String) (bound : Int)
deriving DecidableEq, Repr

namespace Condition

def holds (defines : DefineSet) : Condition → Bool
  | .defined n => defines.isDefined n
  | .notDefined n => !defines.isDefined n
  | .greaterThan n v => v < defines.count n

/-- The line that opens a region under the condition. -/
def directive : Condition → String
  | .defined n => "#ifdef " ++ n
  | .notDefined n => "#ifndef " ++ n
  | .greaterThan n v => "#if " ++ n ++ " > " ++ toString v

end Condition

end ShaderGraph
