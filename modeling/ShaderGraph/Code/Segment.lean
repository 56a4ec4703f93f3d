import ShaderGraph.Define.Condition
/-!
Code with conditional regions and splice points.

A piece of code is a list of segments: plain text, an anchor where text is spliced in later, or a
region that depends on a condition. `Segment.template` writes the regions as preprocessor lines and
the anchors as marked comments; `Segment.render` decides the regions for one define set and fills
the anchors, with no search through the text.
-/

namespace ShaderGraph

/-- A part of a piece of code. -/
inductive Segment where
  | text (s : String)
  | anchor (id : Nat)
  | conditional (condition : Condition) (body otherwise : List Segment)
deriving Inhabited, Repr

/-- Texts to splice in, by anchor. -/
abbrev Fills := List (Nat × String)

namespace Segment

mutual
/-- The segment with directives and anchor marks left in place. -/
def template : Segment → String
  | .text s => s
  | .anchor id => "//@anchor " ++ toString id ++ "\n"
  | .conditional c body otherwise =>
    c.directive ++ "\n" ++ templates body ++
      (if otherwise.isEmpty then "" else "#else\n" ++ templates otherwise) ++ "#endif\n"

def templates : List Segment → String
  | [] => ""
  | s :: rest => template s ++ templates rest
end

mutual
/-- The text of a segment for one define set. An anchor without a fill leaves nothing. -/
def render (defines : DefineSet) (fills : Fills) : Segment → String
  | .text s => s
  | .anchor id => (Keyed.get? id fills).getD ""
  | .conditional c body otherwise =>
    if c.holds defines then renders defines fills body else renders defines fills otherwise

def renders (defines : DefineSet) (fills : Fills) : List Segment → String
  | [] => ""
  | s :: rest => render defines fills s ++ renders defines fills rest
end

/-- Appends text, joining it to a text that stands last. -/
def pushText (s : String) (segments : List Segment) : List Segment :=
  if s.isEmpty then segments
  else go segments
where
  go : List Segment → List Segment
    | [] => [.text s]
    | [.text t] => [.text (t ++ s)]
    | x :: rest => x :: go rest

theorem templates_append (xs ys : List Segment) :
    templates (xs ++ ys) = templates xs ++ templates ys := by
  induction xs with
  | nil => simp [templates]
  | cons x rest ih => simp [templates, ih, String.append_assoc]

theorem renders_append (defines : DefineSet) (fills : Fills) (xs ys : List Segment) :
    renders defines fills (xs ++ ys) = renders defines fills xs ++ renders defines fills ys := by
  induction xs with
  | nil => simp [renders]
  | cons x rest ih => simp [renders, ih, String.append_assoc]

theorem renders_go (defines : DefineSet) (fills : Fills) (s : String) (xs : List Segment) :
    renders defines fills (pushText.go s xs) = renders defines fills xs ++ s := by
  fun_induction pushText.go s xs with
  | case1 => simp [renders, render]
  | case2 t => simp [renders, render]
  | case3 x rest _ ih => simp [renders, ih, String.append_assoc]

/-- Joined to the last text or not, text that is appended comes out at the end. -/
theorem renders_pushText (defines : DefineSet) (fills : Fills) (s : String) (xs : List Segment) :
    renders defines fills (pushText s xs) = renders defines fills xs ++ s := by
  unfold pushText
  split
  next empty => simp [String.isEmpty_iff.mp empty]
  next => exact renders_go defines fills s xs

end Segment

end ShaderGraph
