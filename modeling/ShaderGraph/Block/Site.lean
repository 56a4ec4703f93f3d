import ShaderGraph.Block.Socket
import ShaderGraph.Pass.Ledger
import ShaderGraph.Scene
/-!
The place where a block writes its code.

A block sees its inputs and outputs as slots with a type and a symbol, the name or expression that
stands for them in the code. It writes to the draft of the stage and enters itself in the ledger.
A build that fails keeps what it has done up to that point: `Emit` carries the state past a
failure.
-/

namespace ShaderGraph

/-- A socket as the block sees it while it writes its code. -/
structure Slot where
  name : String
  type : ValueType
  symbol : String
  connected : Bool
deriving DecidableEq, Repr

/-- Why a block cannot write its code. -/
inductive BuildFault where
  | noInput (block className input : String)
  | noOutput (block className output : String)
  | operands (left right : ValueType)
  | gradient (found wanted : ValueType)
  | code (cause : CodeError)
deriving DecidableEq, Repr

def BuildFault.message : BuildFault → String
  | .noInput block cls input => block ++ "[" ++ cls ++ "] has no input named " ++ input
  | .noOutput block cls output => block ++ "[" ++ cls ++ "] has no output named " ++ output
  | .operands l r =>
    "operands of type " ++ l.name ++ " and " ++ r.name ++ " cannot be combined"
  | .gradient g t => "gradient of type " ++ g.name ++ " does not match " ++ t.name
  | .code cause => cause.message

/-- What a block of kind `κ` works on while it writes its code. -/
structure Site (κ : Type) where
  kind : κ
  block : BlockId
  blockName : String
  className : String
  inputs : List Slot
  outputs : List Slot
  draft : StageDraft
  ledger : Ledger
  /-- The draft of the vertex stage, while the fragment stage is built. -/
  vertexDraft : Option StageDraft

/-- The same place for another description of the kind. -/
def Site.withKind {κ μ : Type} (s : Site κ) (kind : μ) : Site μ :=
  { kind, block := s.block, blockName := s.blockName, className := s.className,
    inputs := s.inputs, outputs := s.outputs, draft := s.draft, ledger := s.ledger,
    vertexDraft := s.vertexDraft }

/-- A part of a build. -/
abbrev Emit (κ : Type) := ExceptT BuildFault (StateM (Site κ))

namespace Emit

variable {κ : Type}

def language : Emit κ Language := do return (← get).draft.language

def stage : Emit κ Stage := do return (← get).draft.stage

/-- The input slot of a name. -/
def input (name : String) : Emit κ Slot := do
  let s ← get
  match s.inputs.find? fun slot => slot.name == name with
  | some slot => return slot
  | none => throw (.noInput s.blockName s.className name)

/-- The output slot of a name. -/
def output (name : String) : Emit κ Slot := do
  let s ← get
  match s.outputs.find? fun slot => slot.name == name with
  | some slot => return slot
  | none => throw (.noOutput s.blockName s.className name)

def modifyDraft (f : StageDraft → StageDraft) : Emit κ Unit :=
  modify fun s => { s with draft := f s.draft }

def modifyLedger (f : Ledger → Ledger) : Emit κ Unit :=
  modify fun s => { s with ledger := f s.ledger }

def setKind (kind : κ) : Emit κ Unit := modify fun s => { s with kind }

/-- Changes the symbol of the first output of a name. -/
def setSymbol (name symbol : String) : Emit κ Unit :=
  modify fun s => { s with outputs := go s.outputs }
where
  go : List Slot → List Slot
    | [] => []
    | slot :: rest => if slot.name == name then { slot with symbol } :: rest else slot :: go rest

def push (text : String) : Emit κ Unit := modifyDraft (·.push text)

def beginIf (c : Condition) : Emit κ Unit := modifyDraft (·.beginIf c)

def beginElse : Emit κ Unit := do
  match (← get).draft.beginElse with
  | .ok draft => modifyDraft fun _ => draft
  | .error e => throw (.code e)

def endIf : Emit κ Unit := do
  match (← get).draft.endIf with
  | .ok draft => modifyDraft fun _ => draft
  | .error e => throw (.code e)

/-- Declares the variable of an output. -/
def declareOutput (name expr : String) : Emit κ Unit := do
  let slot ← output name
  push ((← language).declareLet slot.symbol slot.type expr)

def freshVariable (wish : String) : Emit κ String := do
  let s ← get
  let (name, ledger) := s.ledger.freshVariable wish
  set { s with ledger }
  return name

def freshDefine (wish : String) : Emit κ String := do
  let s ← get
  let (name, ledger) := s.ledger.freshDefine wish
  set { s with ledger }
  return name

/-- Enters the block for a later phase. -/
def enter (role : Role) : Emit κ Unit :=
  modify fun s => { s with ledger := s.ledger.enter role s.block }

/-- Notes a problem under the name of the block. -/
def note (message : String) : Emit κ Unit :=
  modify fun s =>
    { s with ledger := s.ledger.addError (s.blockName ++ "[" ++ s.className ++ "]: " ++ message) }

end Emit

/-- What a kind asks the pass to connect to an input that is free. -/
inductive AutoSource where
  | attribute (name : String) (type : ValueType)
  | system (value : SystemValue)
  | uniform (name : String) (value : Value)
deriving DecidableEq, Repr

structure AutoConnect where
  input : String
  source : AutoSource
deriving DecidableEq, Repr

end ShaderGraph
