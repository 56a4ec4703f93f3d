import ShaderGraph.Keyed
import ShaderGraph.Number.Shortest
import ShaderGraph.Text.Quoted
/-!
JSON values and their two written forms.

An object keeps its fields in the order in which they are written. `Json.sorted` puts fields in
the order of their names, each name once; a later field of a name replaces an earlier one.
-/

namespace ShaderGraph

open Number

/-- A JSON value. Integers and other numbers are kept apart, since only integers count and index. -/
inductive Json where
  | null
  | bool (value : Bool)
  | integer (value : Int)
  | real (value : Double)
  | string (value : String)
  | array (items : List Json)
  | object (fields : List (String × Json))
deriving Inhabited

namespace Json

/-- The fields in the order of their names; of fields with one name the last stays. -/
def sorted (fields : List (String × Json)) : List (String × Json) :=
  fields.foldl (fun out (k, v) => Keyed.insert k v out) []

/-- The first field of the given name. -/
def field? (fields : List (String × Json)) (key : String) : Option Json := Keyed.get? key fields

/-- A single precision number as a document holds it: widened, and absent when not finite. -/
def ofSingle (x : Single) : Json :=
  if x.isFinite then .real (Binary.convert x) else .null

/-! ## Writing -/

/-- Escapes of the characters that may not stand in a JSON string. -/
def escapeChar (c : Char) : String :=
  if c = '"' then "\\\""
  else if c = '\\' then "\\\\"
  else if c = '\n' then "\\n"
  else if c = '\r' then "\\r"
  else if c = '\t' then "\\t"
  else if c.toNat = 8 then "\\b"
  else if c.toNat = 12 then "\\f"
  else if c.toNat < 16 then "\\u000" ++ Text.hex c.toNat
  else if c.toNat < 32 then "\\u00" ++ Text.hex c.toNat
  else c.toString

/-- Appends a string with its quotes. -/
def writeString (s : String) (out : String) : String :=
  s.toList.foldl (fun out c => out ++ escapeChar c) (out ++ "\"") ++ "\""

mutual
/-- Appends a value without any blanks. -/
def writeCompact : Json → String → String
  | .null, out => out ++ "null"
  | .bool b, out => out ++ (if b then "true" else "false")
  | .integer n, out => out ++ toString n
  | .real x, out => out ++ Layout.document.finite x
  | .string s, out => writeString s out
  | .array items, out => writeItems items true (out ++ "[") ++ "]"
  | .object fields, out => writeFields fields true (out ++ "\x7b") ++ "\x7d"

/-- Appends array items, `first` when nothing stands before them. -/
def writeItems : List Json → Bool → String → String
  | [], _, out => out
  | v :: rest, first, out =>
    writeItems rest false (writeCompact v (if first then out else out ++ ","))

def writeFields : List (String × Json) → Bool → String → String
  | [], _, out => out
  | (k, v) :: rest, first, out =>
    writeFields rest false
      (writeCompact v (writeString k (if first then out else out ++ ",") ++ ":"))
end

/-- A line break and the indentation of the given depth. -/
def newline (depth : Nat) : String :=
  "\n" ++ String.ofList (List.replicate (2 * depth) ' ')

mutual
/-- Appends a value with one item a line, two blanks a level. -/
def writePretty : Json → Nat → String → String
  | .array [], _, out => out ++ "[]"
  | .object [], _, out => out ++ "\x7b\x7d"
  | .array items, depth, out =>
    writePrettyItems items (depth + 1) true (out ++ "[") ++ newline depth ++ "]"
  | .object fields, depth, out =>
    writePrettyFields fields (depth + 1) true (out ++ "\x7b") ++ newline depth ++ "\x7d"
  | v, _, out => writeCompact v out

def writePrettyItems : List Json → Nat → Bool → String → String
  | [], _, _, out => out
  | v :: rest, depth, first, out =>
    writePrettyItems rest depth false
      (writePretty v depth ((if first then out else out ++ ",") ++ newline depth))

def writePrettyFields : List (String × Json) → Nat → Bool → String → String
  | [], _, _, out => out
  | (k, v) :: rest, depth, first, out =>
    writePrettyFields rest depth false
      (writePretty v depth
        (writeString k ((if first then out else out ++ ",") ++ newline depth) ++ ": "))
end

/-- The value on one line. -/
def compact (v : Json) : String := writeCompact v ""

/-- The value with one item a line. -/
def pretty (v : Json) : String := writePretty v 0 ""

end Json

end ShaderGraph
