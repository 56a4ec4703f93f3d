/-!
Lines of a text, and small functions on lists of texts.
-/

namespace ShaderGraph.Text

/-- Drops the carriage return of a line that ended in a return and a line feed; the line is held
in reverse. -/
def closeLine : List Char → List Char
  | '\r' :: rest => rest.reverse
  | line => line.reverse

/-- Splits at line feeds; `current` is the line in progress, reversed. A text that ends in a line
feed has no further empty line. -/
def splitLines : List Char → List Char → List (List Char)
  | [], [] => []
  | [], current => [current.reverse]
  | '\n' :: rest, current => closeLine current :: splitLines rest []
  | c :: rest, current => splitLines rest (c :: current)

/-- The lines of a text without their ends. -/
def lines (s : String) : List String :=
  (splitLines s.toList []).map String.ofList

/-- The texts one after another. -/
def concat (parts : List String) : String := parts.foldl (· ++ ·) ""

/-- ASCII capitals become small letters, all else stays. -/
def lower (s : String) : String := String.ofList (s.toList.map Char.toLower)

example : lines "a\r\nb\n\nc\r" = ["a", "b", "", "c\r"] := by decide +kernel

end ShaderGraph.Text
