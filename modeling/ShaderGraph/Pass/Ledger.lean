import ShaderGraph.Code.StageDraft
import ShaderGraph.Pass.Names
/-!
What a pass keeps for both stages together: the names it handed out, the varyings, the lists of
blocks that take part in later phases, and the problems found.
-/

namespace ShaderGraph

/-- What the renderer wants to know about a material. -/
structure Hints where
  alphaBlending : Bool := false
  alphaTesting : Bool := false
  worldView : Bool := false
  worldViewProjection : Bool := false
deriving DecidableEq, Repr, Inhabited

/-- A required input with nothing connected. -/
structure UnconnectedInput where
  input : String
  block : String
  className : String
deriving DecidableEq, Repr

def UnconnectedInput.message (u : UnconnectedInput) : String :=
  "input " ++ u.input ++ " from block " ++ u.block ++ "[" ++ u.className ++
    "] is not connected and is not optional"

/-- The phases after a build in which a block may take part. -/
inductive Role where
  /-- Sends its value to the program. -/
  | input
  /-- Sets defines. -/
  | defines
  /-- Sends other values to the program. -/
  | bindable
  /-- Sends its value even when the program is unchanged. -/
  | forcedBindable
  | texture
  /-- Fills anchors. -/
  | repeatable
  /-- Declares uniforms that depend on defines. -/
  | dynamicUniform
  | fallbacks
  /-- Must be ready before the program is made. -/
  | blocking
  | animated
deriving DecidableEq, Repr

namespace Role

def all : List Role :=
  [.input, .defines, .bindable, .forcedBindable, .texture, .repeatable, .dynamicUniform,
    .fallbacks, .blocking, .animated]

def name : Role → String
  | .input => "input"
  | .defines => "defines"
  | .bindable => "bindable"
  | .forcedBindable => "forcedBindable"
  | .texture => "texture"
  | .repeatable => "repeatable"
  | .dynamicUniform => "dynamicUniform"
  | .fallbacks => "fallbacks"
  | .blocking => "blocking"
  | .animated => "animated"

end Role

/-- The blocks that take part in each phase, in the order in which they were built. -/
structure Roster where
  entries : List (Role × BlockId) := []
deriving DecidableEq, Repr, Inhabited

namespace Roster

/-- Enters a block, once for each role. -/
def enter (r : Roster) (role : Role) (id : BlockId) : Roster :=
  if r.entries.contains (role, id) then r else ⟨r.entries ++ [(role, id)]⟩

/-- The blocks of a role. -/
def blocks (r : Roster) (role : Role) : List BlockId :=
  (r.entries.filter fun e => e.1 == role).map Prod.snd

end Roster

/-- Adds an item to the end of a list that does not hold it yet. -/
def pushNew {α : Type} [DecidableEq α] (x : α) (xs : List α) : List α :=
  if x ∈ xs then xs else xs ++ [x]

theorem mem_pushNew {α : Type} [DecidableEq α] {x y : α} {xs : List α} :
    y ∈ pushNew x xs ↔ y ∈ xs ∨ y = x := by
  unfold pushNew
  split <;> grind

theorem nodup_pushNew {α : Type} [DecidableEq α] {x : α} {xs : List α} (distinct : xs.Nodup) :
    (pushNew x xs).Nodup := by
  unfold pushNew
  split
  next => exact distinct
  next fresh => simp [List.nodup_append, distinct]; grind

/-- The part of a pass that both stages share. -/
structure Ledger where
  language : Language
  allowEmptyVertex : Bool := false
  hints : Hints := {}
  /-- Whether something wrote the position. -/
  vertexWritten : Bool := false
  /-- Whether something wrote the color. -/
  fragmentWritten : Bool := false
  unconnected : List UnconnectedInput := []
  customErrors : List String := []
  roster : Roster := {}
  varyings : List VaryingDecl := []
  names : NameTable := {}
deriving Repr

namespace Ledger

def freshVariable (l : Ledger) (wish : String) : String × Ledger :=
  let (name, names) := l.names.freshVariable wish
  (name, { l with names })

def freshDefine (l : Ledger) (wish : String) : String × Ledger :=
  let (name, names) := l.names.freshDefine wish
  (name, { l with names })

def exclude (l : Ledger) (name : String) : Ledger := { l with names := l.names.exclude name }

def hasVarying (l : Ledger) (name : String) : Bool := l.varyings.any fun v => v.name == name

/-- Declares a varying unless there is one of its name. -/
def addVarying (l : Ledger) (decl : VaryingDecl) : Ledger :=
  { l with varyings := declare VaryingDecl.name decl l.varyings }

/-- Notes a problem once. -/
def addError (l : Ledger) (message : String) : Ledger :=
  { l with customErrors := pushNew message l.customErrors }

def reportUnconnected (l : Ledger) (u : UnconnectedInput) : Ledger :=
  { l with unconnected := pushNew u l.unconnected }

def enter (l : Ledger) (role : Role) (id : BlockId) : Ledger :=
  { l with roster := l.roster.enter role id }

def missingVertexMessage : String :=
  "material does not have a vertex output: add a block that writes the vertex position"

def missingFragmentMessage : String :=
  "material does not have a fragment output: add a block that writes the fragment color"

/-- Every problem of the pass: missing outputs, then unconnected inputs, then the rest in the order
in which they were found. -/
def errors (l : Ledger) : List String :=
  (if l.vertexWritten || l.allowEmptyVertex then [] else [missingVertexMessage]) ++
    (if l.fragmentWritten then [] else [missingFragmentMessage]) ++
    l.unconnected.map UnconnectedInput.message ++ l.customErrors

end Ledger

end ShaderGraph
