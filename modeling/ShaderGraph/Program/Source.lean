import ShaderGraph.Stage
import ShaderGraph.Text.Quoted
import ShaderGraph.Value.Type
/-!
Finished programs, and what the place that compiles them tells about them.
-/

namespace ShaderGraph

/-- The text of a program for one define set. -/
structure ProgramSource where
  language : Language
  vertex : String
  fragment : String
  /-- The signature of the defines that the text was made for. -/
  defines : String
deriving DecidableEq, Repr

/-- The number under which a program was handed over. -/
structure ProgramHandle where
  index : Nat
deriving DecidableEq, Repr, Inhabited

/-- How far a program is. -/
inductive ProgramStatus where
  | pending
  | ready
  | failed (message : String)
deriving DecidableEq, Repr

namespace ProgramStatus

def isReady : ProgramStatus → Bool
  | .ready => true
  | _ => false

def failure? : ProgramStatus → Option String
  | .failed message => some message
  | _ => none

/-- The status as people read it. -/
def describe : ProgramStatus → String
  | .pending => "Pending"
  | .ready => "Ready"
  | .failed message => "Failed(" ++ Text.quote message ++ ")"

end ProgramStatus

/-- A program that was handed over, with the pass and the defines it belongs to. -/
structure Installed where
  handle : ProgramHandle
  pass : PassId
  signature : String
deriving DecidableEq, Repr

/-- A program that was made once, to be found again by pass and signature. -/
structure ProgramRecord where
  program : Installed
  source : ProgramSource
  failureReported : Bool := false
deriving DecidableEq, Repr

/-- The programs of a material, one for each pass and signature. -/
structure ProgramCache where
  records : List ProgramRecord := []
deriving DecidableEq, Repr, Inhabited

namespace ProgramCache

def find? (c : ProgramCache) (pass : PassId) (signature : String) : Option ProgramRecord :=
  c.records.find? fun r => r.program.pass == pass && r.program.signature == signature

def add (c : ProgramCache) (r : ProgramRecord) : ProgramCache := ⟨c.records ++ [r]⟩

/-- Forgets the programs of every other pass. -/
def retainPass (c : ProgramCache) (pass : PassId) : ProgramCache :=
  ⟨c.records.filter fun r => r.program.pass == pass⟩

/-- Notes that the failure of a program was reported. -/
def markReported (c : ProgramCache) (p : Installed) : ProgramCache :=
  ⟨c.records.map fun r =>
    if r.program.pass == p.pass && r.program.signature == p.signature then
      { r with failureReported := true }
    else r⟩

end ProgramCache

end ShaderGraph
