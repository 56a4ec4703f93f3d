/-!
Names of variables in exported code, made from the names of blocks.

A capital letter starts a new word, whatever is neither an ASCII letter nor a digit ends one, and
words are joined by single underscores.
-/

namespace ShaderGraph.Export

/-- The words of a name in small letters, joined by underscores; `out` is in reverse and `atBreak`
tells whether an underscore would be one too many. -/
def snakeFrom (out : List Char) (atBreak : Bool) : List Char → List Char
  | [] => (out.dropWhile (· == '_')).reverse
  | c :: rest =>
    if c.isAlphanum then
      let out := if c.isUpper && !atBreak then '_' :: out else out
      snakeFrom (c.toLower :: out) false rest
    else snakeFrom (if atBreak then out else '_' :: out) true rest

/-- Words that cannot be variables in exported code, and the variable of the material itself. -/
def reservedWords : List String := ["material", "fn", "let", "type", "mod", "use", "ref"]

/-- The variable that a block would like to have. -/
def wish (name : String) : String :=
  let words := snakeFrom [] true name.toList
  let base := String.ofList words
  let base := match words with
    | [] => "block_"
    | c :: _ => if c.isDigit then "block_" ++ base else base
  if reservedWords.contains base then base ++ "_block" else base

/-- The wish itself, then the wish with a number. -/
def candidate (base : String) : Nat → String
  | 0 => base
  | n + 1 => base ++ "_" ++ toString (n + 1)

/-- The first candidate that is not taken; among one more than are taken there is one. -/
def variableFor (name : String) (taken : List String) : String :=
  let base := wish name
  (((List.range (taken.length + 1)).map (candidate base)).find? fun c => c ∉ taken).getD base

end ShaderGraph.Export
