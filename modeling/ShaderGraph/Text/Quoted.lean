import ShaderGraph.Text.Hidden
/-!
Text between double quotes, with escapes for the quote itself, the backslash, the usual control
characters and every character that would not show. This is how names stand in exported code and
in descriptions of values.
-/

namespace ShaderGraph.Text

/-- Digits of `n` in base sixteen, lower case, at least one. -/
def hex (n : Nat) : String := String.ofList (Nat.toDigits 16 n)

/-- How one character stands between quotes. -/
def escapeChar (c : Char) : String :=
  if c = '"' then "\\\""
  else if c = '\\' then "\\\\"
  else if c = '\n' then "\\n"
  else if c = '\r' then "\\r"
  else if c = '\t' then "\\t"
  else if c.toNat = 0 then "\\0"
  else if isHidden c then "\\u\x7b" ++ hex c.toNat ++ "\x7d"
  else c.toString

/-- The text in double quotes. -/
def quote (s : String) : String :=
  s.toList.foldl (fun out c => out ++ escapeChar c) "\"" ++ "\""

example : quote "a\"b\\\n" = "\"a\\\"b\\\\\\n\"" := by decide +kernel

end ShaderGraph.Text
