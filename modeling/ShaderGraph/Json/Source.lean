import ShaderGraph.Json.Basic
/-!
Reading JSON text.

The text is first read into a `Source`, which follows the text field by field. Some well-formed
text denotes no value: a number beyond the largest double, a string with half a surrogate pair,
an array or object nested too deep. Such a part is `Source.unreadable`. It does no harm where a
reader of the document skips it, and `Source.value?` fails where it does not.

Numbers that are not integers follow a fixed recipe: the leading digits that fit in 64 bits form an
integer, which is rounded to a double and then multiplied or divided by a power of ten. Each of the
two steps rounds, so the result may differ from the nearest double in its last place.
-/

namespace ShaderGraph.Json

open Number

/-- JSON text as written, before anything is looked up in it. -/
inductive Source where
  | null
  | bool (value : Bool)
  | integer (value : Int)
  | real (value : Double)
  | string (value : String)
  | array (items : List Source)
  | object (fields : List (String × Source))
  | unreadable
deriving Inhabited

namespace Source

/-! ## Numbers -/

/-- `10 ^ n` as a double, exact up to rounding. -/
def powerOfTen (n : Nat) : Double := Binary.ofNat (tenTo n)

/-- Divides by `10 ^ 308` as long as the exponent is below what one step takes, at most `steps`
times, then applies the rest of the exponent. Fails where the result is too large. -/
def scaleByTen : Nat → Double → Int → Option Double
  | steps, x, e =>
    if e.natAbs ≤ 308 then
      if 0 ≤ e then
        let y := x * powerOfTen e.toNat
        if y.isInfinite then none else some y
      else some (Binary.div x (powerOfTen (-e).toNat))
    else if x.isZero then some x
    else if 0 ≤ e then none
    else match steps with
      | 0 => some Binary.zero
      | steps + 1 => scaleByTen steps (Binary.div x (powerOfTen 308)) (e + 308)

/-- The double `± significand * 10 ^ e`. Two divisions bring every 64-bit integer to zero. -/
def realOf (negative : Bool) (significand : Nat) (e : Int) : Option Double :=
  (scaleByTen 3 (Binary.ofNat significand) e).map fun x => if negative then -x else x

/-- Appends digits to a significand while it fits in 64 bits: the significand, how many digits
went into it, and how many were left over. -/
def gather (s : Nat) : List Nat → Nat × Nat × Nat
  | [] => (s, 0, 0)
  | d :: rest =>
    if s * 10 + d < twoTo 64 then
      let (s', used, left) := gather (s * 10 + d) rest
      (s', used + 1, left)
    else (s, 0, rest.length + 1)

/-- The value of exponent digits, or nothing once it passes the 32-bit range. -/
def exponentOf (e : Nat) : List Nat → Option Nat
  | [] => some e
  | d :: rest => if e * 10 + d < twoTo 31 then exponentOf (e * 10 + d) rest else none

/-- Holds an exponent inside the 32-bit range. -/
def clampExponent (e : Int) : Int := max least32 (min greatest32 e)

/-- The parts of a number as written. -/
structure Numeral where
  negative : Bool
  whole : List Nat
  fraction : Option (List Nat)
  /-- Sign and digits of the exponent. -/
  exponent : Option (Bool × List Nat)

/-- The value of a numeral, or nothing when it is too large. -/
def Numeral.value? (n : Numeral) : Option Source :=
  let (s, _, left) := gather 0 n.whole
  match n.fraction, n.exponent with
  | none, none =>
    if 0 < left then (realOf n.negative s left).map .real
    else if !n.negative then some (.integer s)
    else if 0 < s ∧ s ≤ twoTo 63 then some (.integer (-(s : Int)))
    else some (.real (-(Binary.ofNat s)))
  | fraction, exponent =>
    let (s, used, _) := gather s (fraction.getD [])
    let e : Int := left - used
    match exponent with
    | none => (realOf n.negative s e).map .real
    | some (down, digits) =>
      match exponentOf 0 digits with
      | some x => (realOf n.negative s (clampExponent (if down then e - x else e + x))).map .real
      | none =>
        if s ≠ 0 ∧ !down then none
        else some (.real (if n.negative then -Binary.zero else Binary.zero))

def digitOf (c : Char) : Nat := c.toNat - '0'.toNat

/-- The digits at the start, and the rest. -/
def digits (cs : List Char) : List Nat × List Char :=
  ((cs.takeWhile Char.isDigit).map digitOf, cs.dropWhile Char.isDigit)

/-- Digits before the point: a single zero, or digits that do not start with zero. -/
def wholePart (cs : List Char) : Option (List Nat × List Char) :=
  match digits cs with
  | ([], _) => none
  | ([0], rest) => some ([0], rest)
  | (0 :: _, _) => none
  | found => some found

/-- A point and at least one digit, if there is a point. -/
def fractionPart : List Char → Option (Option (List Nat) × List Char)
  | '.' :: cs =>
    match digits cs with
    | ([], _) => none
    | (ds, rest) => some (some ds, rest)
  | cs => some (none, cs)

/-- The exponent, if there is one: a letter, a sign that may be left out, at least one digit. -/
def exponentPart : List Char → Option (Option (Bool × List Nat) × List Char)
  | [] => some (none, [])
  | c :: cs =>
    if c = 'e' ∨ c = 'E' then
      let (down, cs) := match cs with
        | '+' :: cs => (false, cs)
        | '-' :: cs => (true, cs)
        | cs => (false, cs)
      match digits cs with
      | ([], _) => none
      | (ds, rest) => some (some (down, ds), rest)
    else some (none, c :: cs)

/-- A number at the start of the text. -/
def number (cs : List Char) : Option (Source × List Char) := do
  let (negative, cs) := match cs with
    | '-' :: cs => (true, cs)
    | cs => (false, cs)
  let (whole, cs) ← wholePart cs
  let (fraction, cs) ← fractionPart cs
  let (exponent, cs) ← exponentPart cs
  let value := Numeral.value? ⟨negative, whole, fraction, exponent⟩
  some (value.getD .unreadable, cs)

/-! ## Strings -/

def hexDigit? (c : Char) : Option Nat :=
  if c.isDigit then some (digitOf c)
  else if 'a' ≤ c ∧ c ≤ 'f' then some (c.toNat - 'a'.toNat + 10)
  else if 'A' ≤ c ∧ c ≤ 'F' then some (c.toNat - 'A'.toNat + 10)
  else none

def hexUnit? (a b c d : Char) : Option Nat := do
  some ((((← hexDigit? a) * 16 + (← hexDigit? b)) * 16 + (← hexDigit? c)) * 16 + (← hexDigit? d))

def escaped? : Char → Option Char
  | '"' => some '"'
  | '\\' => some '\\'
  | '/' => some '/'
  | 'b' => some (Char.ofNat 8)
  | 'f' => some (Char.ofNat 12)
  | 'n' => some '\n'
  | 'r' => some '\r'
  | 't' => some '\t'
  | _ => none

/-- Code points up to the closing quote, surrogates still single. -/
def stringUnits : List Char → List Nat → Option (List Nat × List Char)
  | [], _ => none
  | '"' :: rest, units => some (units.reverse, rest)
  | '\\' :: 'u' :: a :: b :: c :: d :: rest, units =>
    match hexUnit? a b c d with
    | some n => stringUnits rest (n :: units)
    | none => none
  | '\\' :: e :: rest, units =>
    match escaped? e with
    | some c => stringUnits rest (c.toNat :: units)
    | none => none
  | c :: rest, units =>
    if c.toNat < 32 ∨ c = '\\' then none else stringUnits rest (c.toNat :: units)

/-- Joins surrogate pairs; nothing when half of a pair stands alone. -/
def joinUnits : List Nat → Option (List Char)
  | [] => some []
  | hi :: lo :: rest =>
    if 0xd800 ≤ hi ∧ hi < 0xdc00 then
      if 0xdc00 ≤ lo ∧ lo < 0xe000 then
        (joinUnits rest).map (Char.ofNat (0x10000 + (hi - 0xd800) * 0x400 + (lo - 0xdc00)) :: ·)
      else none
    else if 0xdc00 ≤ hi ∧ hi < 0xe000 then none
    else (joinUnits (lo :: rest)).map (Char.ofNat hi :: ·)
  | [n] => if 0xd800 ≤ n ∧ n < 0xe000 then none else some [Char.ofNat n]

/-- The rest of a string after its opening quote; the text is absent when it denotes none. -/
def stringBody (cs : List Char) : Option (Option String × List Char) :=
  (stringUnits cs []).map fun (units, rest) => ((joinUnits units).map String.ofList, rest)

/-! ## Values -/

def isBlank (c : Char) : Bool := c = ' ' || c = '\n' || c = '\t' || c = '\r'

def skipBlanks (cs : List Char) : List Char := cs.dropWhile isBlank

/-- How many arrays and objects may stand inside one another. -/
def maxDepth : Nat := 127

/-- An object with a field whose name denotes no text cannot be read as a whole. -/
def objectOf (fields : List (Option String × Source)) : Source :=
  match fields.mapM fun (k, v) => k.map fun k => (k, v) with
  | some fields => .object fields
  | none => .unreadable

mutual
/-- A value at the start of the text. `depth` counts the levels that may still be opened; `fuel`
bounds the nesting of calls, and every call but a last one consumes a character. -/
def value : Nat → Nat → List Char → Option (Source × List Char)
  | 0, _, _ => none
  | fuel + 1, depth, cs =>
    match skipBlanks cs with
    | [] => none
    | 'n' :: 'u' :: 'l' :: 'l' :: rest => some (.null, rest)
    | 't' :: 'r' :: 'u' :: 'e' :: rest => some (.bool true, rest)
    | 'f' :: 'a' :: 'l' :: 's' :: 'e' :: rest => some (.bool false, rest)
    | '"' :: rest =>
      (stringBody rest).map fun (s, rest) => (s.elim .unreadable .string, rest)
    | '[' :: rest =>
      match skipBlanks rest with
      | ']' :: rest => some (if depth = 0 then .unreadable else .array [], rest)
      | rest =>
        match items fuel (depth - 1) rest with
        | some (vs, rest) => some (if depth = 0 then .unreadable else .array vs, rest)
        | none => none
    | '\x7b' :: rest =>
      match skipBlanks rest with
      | '\x7d' :: rest => some (if depth = 0 then .unreadable else .object [], rest)
      | rest =>
        match fields fuel (depth - 1) rest with
        | some (fs, rest) => some (if depth = 0 then .unreadable else objectOf fs, rest)
        | none => none
    | cs => number cs

/-- Array items up to the closing bracket, at least one. -/
def items : Nat → Nat → List Char → Option (List Source × List Char)
  | 0, _, _ => none
  | fuel + 1, depth, cs =>
    match value fuel depth cs with
    | none => none
    | some (v, rest) =>
      match skipBlanks rest with
      | ',' :: rest =>
        match items fuel depth rest with
        | some (vs, rest) => some (v :: vs, rest)
        | none => none
      | ']' :: rest => some ([v], rest)
      | _ => none

/-- Object fields up to the closing brace, at least one. -/
def fields : Nat → Nat → List Char → Option (List (Option String × Source) × List Char)
  | 0, _, _ => none
  | fuel + 1, depth, cs =>
    match skipBlanks cs with
    | '"' :: rest =>
      match stringBody rest with
      | none => none
      | some (k, rest) =>
        match skipBlanks rest with
        | ':' :: rest =>
          match value fuel depth rest with
          | none => none
          | some (v, rest) =>
            match skipBlanks rest with
            | ',' :: rest =>
              match fields fuel depth rest with
              | some (fs, rest) => some ((k, v) :: fs, rest)
              | none => none
            | '\x7d' :: rest => some ([(k, v)], rest)
            | _ => none
        | _ => none
    | _ => none
end

/-- The whole text as one value with nothing but blanks around it. -/
def parse (text : String) : Option Source :=
  let cs := text.toList
  match value (2 * cs.length + 2) maxDepth cs with
  | some (v, rest) => if (skipBlanks rest).isEmpty then some v else none
  | none => none

/-! ## Reading the source as a value -/

mutual
/-- The value of a source: objects get their fields in order of name, the last of one name. -/
def value? : Source → Option Json
  | .null => some .null
  | .bool b => some (.bool b)
  | .integer n => some (.integer n)
  | .real x => some (.real x)
  | .string s => some (.string s)
  | .array vs => (values? vs).map .array
  | .object fs => (fieldValues? fs []).map .object
  | .unreadable => none

def values? : List Source → Option (List Json)
  | [] => some []
  | v :: rest =>
    match value? v with
    | some v => (values? rest).map (v :: ·)
    | none => none

/-- Puts the fields into `done`, one after another. -/
def fieldValues? : List (String × Source) → List (String × Json) → Option (List (String × Json))
  | [], done => some done
  | (k, v) :: rest, done =>
    match value? v with
    | some v => fieldValues? rest (Keyed.insert k v done)
    | none => none
end

mutual
/-- A value as the source that spells it out. -/
def ofJson : Json → Source
  | .null => .null
  | .bool b => .bool b
  | .integer n => .integer n
  | .real x => .real x
  | .string s => .string s
  | .array vs => .array (ofItems vs)
  | .object fs => .object (ofFields fs)

def ofItems : List Json → List Source
  | [] => []
  | v :: rest => ofJson v :: ofItems rest

def ofFields : List (String × Json) → List (String × Source)
  | [] => []
  | (k, v) :: rest => (k, ofJson v) :: ofFields rest
end

end Source

/-- Reads a JSON value from text. -/
def parse (text : String) : Option Json := (Source.parse text).bind Source.value?

end ShaderGraph.Json
