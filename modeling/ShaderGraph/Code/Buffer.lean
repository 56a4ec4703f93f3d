import ShaderGraph.Code.Segment
/-!
Writing code with nested regions, from beginning to end.

A `CodeBuffer` holds the finished segments and the regions that are still open, the innermost
first. An operation that makes no sense where it is called leaves the buffer as it was.
-/

namespace ShaderGraph

/-- A region that has been opened and not closed. -/
structure OpenRegion where
  condition : Condition
  body : List Segment := []
  otherwise : List Segment := []
  inElse : Bool := false
deriving Repr

/-- Why an operation on a code buffer fails. -/
inductive CodeError where
  | elseWithoutRegion
  | endWithoutRegion
  | leftOpen (count : Nat)
deriving DecidableEq, Repr

def CodeError.message : CodeError → String
  | .elseWithoutRegion => "else without a matching open conditional region"
  | .endWithoutRegion => "end of conditional region without a matching begin"
  | .leftOpen n => toString n ++ " conditional region(s) left open"

/-- Code in the making. -/
structure CodeBuffer where
  root : List Segment := []
  regions : List OpenRegion := []
deriving Repr, Inhabited

namespace CodeBuffer

/-- Changes the list that is being written to. -/
def modifyCurrent (b : CodeBuffer) (f : List Segment → List Segment) : CodeBuffer :=
  match b.regions with
  | [] => { b with root := f b.root }
  | r :: outer =>
    if r.inElse then { b with regions := { r with otherwise := f r.otherwise } :: outer }
    else { b with regions := { r with body := f r.body } :: outer }

def pushText (b : CodeBuffer) (s : String) : CodeBuffer := b.modifyCurrent (Segment.pushText s)

def pushSegment (b : CodeBuffer) (s : Segment) : CodeBuffer := b.modifyCurrent (· ++ [s])

def pushAnchor (b : CodeBuffer) (id : Nat) : CodeBuffer := b.pushSegment (.anchor id)

def beginIf (b : CodeBuffer) (c : Condition) : CodeBuffer :=
  { b with regions := { condition := c } :: b.regions }

/-- Turns to the other branch of the innermost region, once. -/
def beginElse (b : CodeBuffer) : Except CodeError CodeBuffer :=
  match b.regions with
  | [] => .error .elseWithoutRegion
  | r :: outer =>
    if r.inElse then .error .elseWithoutRegion
    else .ok { b with regions := { r with inElse := true } :: outer }

/-- Closes the innermost region. -/
def endIf (b : CodeBuffer) : Except CodeError CodeBuffer :=
  match b.regions with
  | [] => .error .endWithoutRegion
  | r :: outer =>
    .ok (pushSegment { b with regions := outer } (.conditional r.condition r.body r.otherwise))

def isBalanced (b : CodeBuffer) : Bool := b.regions.isEmpty

/-- The finished code, if every region is closed. -/
def segments (b : CodeBuffer) : Except CodeError (List Segment) :=
  if b.regions.isEmpty then .ok b.root else .error (.leftOpen b.regions.length)

end CodeBuffer

end ShaderGraph
