import ShaderGraph.Json.Source
import ShaderGraph.Material.Options
import ShaderGraph.Search
/-!
Documents: materials as they are exchanged.

A block has a number inside its document, and links refer to it. The settings of its kind stand
next to the common keys.
-/

namespace ShaderGraph

/-- An input and the output that feeds it. -/
structure LinkEntry where
  input : String
  target : Nat
  output : String
deriving DecidableEq, Repr

/-- A block of a document. -/
structure BlockEntry where
  id : Nat
  tag : String
  name : String
  comments : String := ""
  links : List LinkEntry := []
  /-- Settings of the kind, in order of name. -/
  fields : List (String × Json) := []

/-- A document. -/
structure Document where
  name : String
  mode : Mode := .material
  comment : String := ""
  blocks : List BlockEntry
  outputs : List Nat
  locations : Option Json := none
  editorData : Option Json := none

/-! ## Writing -/

def LinkEntry.toJson (l : LinkEntry) : Json :=
  .object
    [("inputName", .string l.input), ("targetBlockId", .integer l.target),
      ("targetConnectionName", .string l.output)]

/-- A field for a text that is left out when empty. -/
def textField (key text : String) : List (String × Json) :=
  if text.isEmpty then [] else [(key, .string text)]

def BlockEntry.toJson (b : BlockEntry) : Json :=
  .object
    ([("id", .integer b.id), ("customType", .string b.tag), ("name", .string b.name)] ++
      textField "comments" b.comments ++
      [("inputs", .array (b.links.map LinkEntry.toJson))] ++ b.fields)

def Document.toJson (d : Document) : Json :=
  .object
    ([("name", .string d.name), ("mode", .string d.mode.name)] ++ textField "comment" d.comment ++
      [("blocks", .array (d.blocks.map BlockEntry.toJson)),
        ("outputNodes", .array (d.outputs.map fun id : Nat => .integer id))] ++
      d.locations.toList.map (fun v => ("locations", v)) ++
      d.editorData.toList.map (fun v => ("editorData", v)))

/-! ## Reading

A key that means something may be given once. Other keys of documents and links are passed over,
whatever their value; other keys of blocks are settings of the kind. -/

namespace Json.Source

/-- The value of a key that may be given once: nothing if it is given twice. -/
def once? (fields : List (String × Source)) (key : String) : Option (Option Source) :=
  match fields.filter fun f => f.1 == key with
  | [] => some none
  | [(_, v)] => some (some v)
  | _ => none

/-- A key that must be given. -/
def required? {α : Type} (fields : List (String × Source)) (key : String)
    (read : Source → Option α) : Option α := do
  let found ← once? fields key
  read (← found)

/-- A key that may be left out. -/
def defaulted? {α : Type} (fields : List (String × Source)) (key : String) (absent : α)
    (read : Source → Option α) : Option α := do
  match ← once? fields key with
  | none => some absent
  | some v => read v

def string? (v : Source) : Option String := v.value? >>= Json.string?

def word? (v : Source) : Option Nat := v.value? >>= Json.word?

/-- A list of things. -/
def list? {α : Type} (read : Source → Option α) : Source → Option (List α)
  | .array items => items.mapM read
  | _ => none

/-- Any value, where null stands for none. -/
def optional? (v : Source) : Option (Option Json) :=
  match v with
  | .null => some none
  | v => v.value?.map some

/-- A choice by its name. -/
def choice? : Source → Option String
  | .string s => some s
  | .object [(s, .null)] => some s
  | _ => none

/-- The fields of an object, or of an array that lists the values of some keys in order. An array
may end early, but may not go on. -/
def record? (keys : List String) : Source → Option (List (String × Source))
  | .object fields => some fields
  | .array items => if items.length ≤ keys.length then some (keys.zip items) else none
  | _ => none

end Json.Source

open Json (Source)

def LinkEntry.ofSource? (v : Source) : Option LinkEntry := do
  let fields ← v.record? ["inputName", "targetBlockId", "targetConnectionName"]
  let input ← Source.required? fields "inputName" Source.string?
  let target ← Source.required? fields "targetBlockId" Source.word?
  let output ← Source.required? fields "targetConnectionName" Source.string?
  return { input, target, output }

/-- The keys that all blocks have. -/
def BlockEntry.commonKeys : List String := ["id", "customType", "name", "comments", "inputs"]

def BlockEntry.ofSource? : Source → Option BlockEntry
  | .object fields => do
    let id ← Source.required? fields "id" Source.word?
    let tag ← Source.required? fields "customType" Source.string?
    let name ← Source.required? fields "name" Source.string?
    let comments ← Source.defaulted? fields "comments" "" Source.string?
    let links ← Source.defaulted? fields "inputs" [] (Source.list? LinkEntry.ofSource?)
    let fields ← Source.fieldValues? (fields.filter fun f => f.1 ∉ commonKeys) []
    return { id, tag, name, comments, links, fields }
  | _ => none

namespace Document

def ofSource? (v : Source) : Option Document := do
  let fields ← v.record?
    ["name", "mode", "comment", "blocks", "outputNodes", "locations", "editorData"]
  let name ← Source.required? fields "name" Source.string?
  let mode ← Source.defaulted? fields "mode" .material fun v => v.choice? >>= Mode.ofName?
  let comment ← Source.defaulted? fields "comment" "" Source.string?
  let blocks ← Source.required? fields "blocks" (Source.list? BlockEntry.ofSource?)
  let outputs ← Source.required? fields "outputNodes" (Source.list? Source.word?)
  let locations ← Source.defaulted? fields "locations" none Source.optional?
  let editorData ← Source.defaulted? fields "editorData" none Source.optional?
  return { name, mode, comment, blocks, outputs, locations, editorData }

/-! ## References -/

/-- Why a document cannot be taken as one. -/
inductive Fault where
  | unparsable
  | duplicateId (id : Nat) (block : String)
  | missingTarget (block input : String) (target : Nat)
  | missingOutput (id : Nat)
deriving DecidableEq, Repr

def Fault.message : Fault → String
  | .unparsable => "failed to parse graph json"
  | .duplicateId id block => "duplicate block id " ++ toString id ++ " (" ++ block ++ ")"
  | .missingTarget block input target =>
    "block " ++ block ++ " input " ++ input ++ " links to missing block " ++ toString target
  | .missingOutput id => "output node " ++ toString id ++ " is not a block of the graph"

def ids (d : Document) : List Nat := d.blocks.map BlockEntry.id

/-- The first block whose number an earlier one has. -/
def repeated? (seen : List Nat) : List BlockEntry → Option BlockEntry
  | [] => none
  | b :: rest => if b.id ∈ seen then some b else repeated? (b.id :: seen) rest

/-- The first fault of the references: a number given twice, a link to a block that is not there,
an output that is not there. -/
def fault? (d : Document) : Option Fault :=
  let dangling := d.blocks.flatMap fun b =>
    (b.links.filter fun l => l.target ∉ d.ids).map fun l =>
      Fault.missingTarget b.name l.input l.target
  let absent := (d.outputs.filter fun id => id ∉ d.ids).map Fault.missingOutput
  ((repeated? [] d.blocks).toList.map (fun b => Fault.duplicateId b.id b.name) ++ dangling ++
    absent).head?

/-- Reads a document and looks at its references. -/
def parse (text : String) : Except Fault Document :=
  match Source.parse text >>= ofSource? with
  | none => .error .unparsable
  | some d =>
    match d.fault? with
    | some fault => .error fault
    | none => .ok d

/-! ## Tree shaking -/

/-- The number of the block at which a teleport enters, as the settings of a block give it. -/
def entryOf (b : BlockEntry) : Option Nat := Json.field? b.fields "entryPoint" >>= Json.word?

/-- The blocks that feed a block: the targets of its links and its teleport entry. -/
def feeders (d : Document) (id : Nat) : List Nat :=
  match d.blocks.find? fun b => b.id == id with
  | none => []
  | some b => b.links.map LinkEntry.target ++ (entryOf b).toList

/-- The blocks that the outputs reach. -/
def reached (d : Document) : List Nat := Search.preorder d.ids d.feeders [] d.outputs

/-- The document without the blocks that no output reaches. -/
def shake (d : Document) : Document :=
  let reached := d.reached
  { d with blocks := d.blocks.filter fun b => b.id ∈ reached }

end Document

end ShaderGraph
