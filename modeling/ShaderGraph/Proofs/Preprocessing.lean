import Mathlib
import ShaderGraph.Proofs.Lines

/-!
# Templates under a preprocessor

A template shows the regions of code as directives and its anchors as marked comments, line by line.
`Preprocessor.process` reads such a text as a preprocessor would: it knows nothing of the tree that
the text was printed from, keeps a stack of the conditionals that it is in, and puts the fills of
anchors into its output without reading them.

Each line of a template is read back as what it was printed for (`Preprocessor.read_directive`,
`Preprocessor.read_anchor`). So the lines of a piece of code add its text to the output where the
conditionals around it are taken, and leave these conditionals as they were
(`Preprocessor.shows_templates`). The result is `Segment.process_templates`.
-/

namespace ShaderGraph

open List Option String

namespace Preprocessor

/-! ## 1. Lines -/

/-- What a line asks for. -/
inductive Line where
  | text (line : List Char)
  | anchor (id : Nat)
  | ifDefined (name : String)
  | ifNotDefined (name : String)
  | ifGreater (name : String) (bound : Int)
  | otherwise
  | close
deriving DecidableEq, Repr

/-- The lines of a text without their ends. -/
def lines (text : List Char) : List (List Char) :=
  let pieces := text.splitOn '\n'
  if pieces.getLast? = some [] then pieces.dropLast else pieces

/-- A line that is left as it is. -/
def Untouched (line : List Char) : Prop :=
  ¬['#'] <+: line ∧ ¬"//@anchor ".toList <+: line

instance : DecidablePred Untouched := fun line =>
  inferInstanceAs (Decidable (¬['#'] <+: line ∧ ¬"//@anchor ".toList <+: line))

/-- Reads the words of a directive or of the mark of an anchor. -/
def ofWords? : List String → Option Line
  | ["#ifdef", name] => some (.ifDefined name)
  | ["#ifndef", name] => some (.ifNotDefined name)
  | ["#if", name, ">", bound] => bound.toInt?.map (.ifGreater name)
  | ["#else"] => some .otherwise
  | ["#endif"] => some .close
  | ["//@anchor", id] => id.toNat?.map .anchor
  | _ => none

/-- Reads a line. What looks like a directive or like the mark of an anchor must be one. -/
def read? (line : List Char) : Option Line :=
  if Untouched line then some (.text line)
  else ofWords? ((line.splitOn ' ').map String.ofList)

/-- A conditional that is being read: whether the current branch is taken, and whether it is the
last one. -/
structure Branch where
  taken : Bool
  last : Bool
deriving DecidableEq, Repr

structure State where
  /-- The conditionals around the current line, the innermost first. -/
  branches : List Branch := []
  out : String := ""
deriving DecidableEq, Repr

/-- Adds to the output, if all branches around are taken. -/
def State.emit (s : State) (text : String) : State :=
  if s.branches.all Branch.taken then { s with out := s.out ++ text } else s

def State.within (s : State) (b : Branch) : State := { s with branches := b :: s.branches }

def State.enter (s : State) (taken : Bool) : State := s.within ⟨taken, false⟩

def step (d : DefineSet) (fills : Fills) (s : State) : Line → Option State
  | .text line => some (s.emit (String.ofList line ++ "\n"))
  | .anchor id => some (s.emit ((Keyed.get? id fills).getD ""))
  | .ifDefined name => some (s.enter (d.isDefined name))
  | .ifNotDefined name => some (s.enter (!d.isDefined name))
  | .ifGreater name bound => some (s.enter (bound < d.count name))
  | .otherwise =>
    match s.branches with
    | ⟨taken, false⟩ :: outer => some { s with branches := ⟨!taken, true⟩ :: outer }
    | _ => none
  | .close =>
    match s.branches with
    | _ :: outer => some { s with branches := outer }
    | [] => none

/-- Goes through lines; one that cannot be read or makes no sense where it is stops the reading. -/
def run (d : DefineSet) (fills : Fills) : List (List Char) → State → Option State
  | [], s => some s
  | line :: rest, s => (read? line).bind fun l => (step d fills s l).bind (run d fills rest)

/-- What a preprocessor makes of a text in which every conditional is closed. -/
def process (d : DefineSet) (fills : Fills) (text : String) : Option String :=
  (run d fills (lines text.toList) {}).bind fun s => if s.branches = [] then some s.out else none

variable {d : DefineSet} {fills : Fills} {s : State} {line : List Char} {word : String}

theorem lines_append (h : '\n' ∉ line) (rest : List Char) :
    lines (line ++ '\n' :: rest) = line :: lines rest := by
  unfold lines
  rw [splitOn_append_cons_self_of_not_mem h]
  obtain ⟨first, more, same⟩ := exists_cons_of_ne_nil (splitOn_ne_nil '\n' rest)
  rw [same]
  dsimp only
  rw [getLast?_cons_cons, dropLast_cons_cons]
  split <;> rfl

/-! ## 2. Lines of a template -/

theorem read_text (h : Untouched line) : read? line = some (.text line) :=
  if_pos h

/-- What begins with a hash is read by its words. -/
theorem read_hash (h : ['#'] <+: line) :
    read? line = ofWords? ((line.splitOn ' ').map String.ofList) :=
  if_neg fun untouched => untouched.1 h

theorem splitOn_word (h : IsWord word) (rest : List Char) :
    (word.toList ++ ' ' :: rest).splitOn ' ' = word.toList :: rest.splitOn ' ' :=
  splitOn_append_cons_self_of_not_mem (fun blank => (h _ blank).1 rfl) rest

theorem splitOn_last_word (h : IsWord word) : word.toList.splitOn ' ' = [word.toList] :=
  splitOn_eq_singleton fun blank => (h _ blank).1 rfl

end Preprocessor

def Condition.subject : Condition → String
  | .defined name | .notDefined name | .greaterThan name _ => name

/-- What the directive of a condition asks of a preprocessor. -/
def Condition.line : Condition → Preprocessor.Line
  | .defined name => .ifDefined name
  | .notDefined name => .ifNotDefined name
  | .greaterThan name bound => .ifGreater name bound

namespace Preprocessor

variable {d : DefineSet} {fills : Fills} {s : State}

theorem read_directive_name {word name : String} (hash : ['#'] <+: word.toList)
    (hw : IsWord word) (hn : IsWord name) :
    read? (word.toList ++ ' ' :: name.toList) = ofWords? [word, name] := by
  rw [read_hash (hash.trans (prefix_append _ _)), splitOn_word hw, splitOn_last_word hn]
  simp only [map_cons, map_nil, ofList_toList]

/-- A directive is read back as its condition. -/
theorem read_directive (c : Condition) (h : IsWord c.subject) :
    read? c.directive.toList = some c.line := by
  cases c with
  | defined name =>
    have word : IsWord name := h
    have words : (Condition.defined name).directive.toList =
        "#ifdef".toList ++ ' ' :: name.toList := by
      simp [Condition.directive]
    rw [words, read_directive_name (by decide) (by decide) word]
    rfl
  | notDefined name =>
    have word : IsWord name := h
    have words : (Condition.notDefined name).directive.toList =
        "#ifndef".toList ++ ' ' :: name.toList := by
      simp [Condition.directive]
    rw [words, read_directive_name (by decide) (by decide) word]
    rfl
  | greaterThan name bound =>
    have word : IsWord name := h
    have words : (Condition.greaterThan name bound).directive.toList =
        "#if".toList ++ ' ' :: (name.toList ++ ' ' :: (">".toList ++ ' ' ::
          (toString bound).toList)) := by
      simp [Condition.directive]
    rw [words, read_hash (by simp), splitOn_word (by decide), splitOn_word word,
      splitOn_word (by decide), splitOn_last_word (isWord_toString_int bound)]
    -- no part of the library smaller than the whole brings `Int.toInt?_repr`
    simp [ofWords?, Condition.line, Int.toString_eq_repr, Int.toInt?_repr]

/-- The mark of an anchor is read back as the anchor. -/
theorem read_anchor (id : Nat) :
    read? ("//@anchor " ++ toString id).toList = some (.anchor id) := by
  have words : ("//@anchor " ++ toString id).toList =
      "//@anchor".toList ++ ' ' :: id.repr.toList := by
    simp
  have marked : ¬Untouched ("//@anchor " ++ toString id).toList :=
    fun untouched => untouched.2 ⟨id.repr.toList, by simp⟩
  rw [read?, if_neg marked, words, splitOn_word (by decide), splitOn_last_word (isWord_repr id)]
  show (String.ofList id.repr.toList).toNat?.map Line.anchor = _
  rw [ofList_toList, Nat.toNat?_repr, map_some]

theorem read_else : read? "#else".toList = some .otherwise := by decide

theorem read_endif : read? "#endif".toList = some .close := by decide

/-! ## 3. Whole lines -/

theorem run_line {line : List Char} (h : '\n' ∉ line) (rest : List Char) {l : Line}
    (read : read? line = some l) :
    run d fills (lines (line ++ '\n' :: rest)) s =
      (step d fills s l).bind (run d fills (lines rest)) := by
  rw [lines_append h, run, read, bind_some]

theorem State.emit_emit (s : State) (x y : String) : (s.emit x).emit y = s.emit (x ++ y) := by
  unfold State.emit
  cases taken : s.branches.all Branch.taken <;> simp [taken, String.append_assoc]

theorem State.emit_empty (s : State) : s.emit "" = s := by
  unfold State.emit
  cases s.branches.all Branch.taken <;> simp

/-- Inside a conditional the output grows if its branch is taken. -/
theorem State.emit_within (s : State) (b : Branch) (text : String) :
    (s.within b).emit text = (s.emit (if b.taken then text else "")).within b := by
  unfold State.emit State.within
  cases taken : b.taken <;> cases outer : s.branches.all Branch.taken <;> simp [taken, outer]

/-- The lines of a template add a text to the output, and leave the conditionals around as they
were. -/
def Shows (d : DefineSet) (fills : Fills) (template text : String) : Prop :=
  ∀ (rest : List Char) (s : State),
    run d fills (lines (template.toList ++ rest)) s = run d fills (lines rest) (s.emit text)

/-- A text that consists of lines, none of which is a directive or the mark of an anchor. -/
def PlainText (text : String) : Prop :=
  ∃ lines : List String, text = String.join (lines.map (· ++ "\n")) ∧
    ∀ line ∈ lines, Unbroken line ∧ Untouched line.toList

theorem shows_text {text : String} (h : PlainText text) : Shows d fills text text := by
  intro rest s
  obtain ⟨all, rfl, plain⟩ := h
  induction all generalizing s with
  | nil => rw [map_nil, join_nil, s.emit_empty]; rfl
  | cons line more ih =>
    rw [forall_mem_cons] at plain
    have first : (String.join ((line :: more).map (· ++ "\n"))).toList ++ rest =
        line.toList ++ '\n' :: ((String.join (more.map (· ++ "\n"))).toList ++ rest) := by
      simp
    rw [first, run_line plain.1.1 _ (read_text plain.1.2)]
    simp only [step, bind_some]
    rw [ih _ plain.2, s.emit_emit, ofList_toList, map_cons, join_cons]

end Preprocessor

/-! ## 4. Code -/

namespace Segment

mutual
/-- Texts are plain, and conditions ask for names that are single words. -/
def Clear : Segment → Prop
  | .text s => Preprocessor.PlainText s
  | .anchor _ => True
  | .conditional c body otherwise => IsWord c.subject ∧ AllClear body ∧ AllClear otherwise

def AllClear : List Segment → Prop
  | [] => True
  | s :: rest => s.Clear ∧ AllClear rest
end

end Segment

namespace Preprocessor

open Segment (render renders template templates Clear AllClear)

variable {d : DefineSet} {fills : Fills} {s : State} {c : Condition}

theorem step_line (c : Condition) : step d fills s c.line = some (s.enter (c.holds d)) := by
  cases c <;> rfl

theorem unbroken_directive (h : IsWord c.subject) : Unbroken c.directive := by
  have name := h.unbroken
  cases c with
  | defined n | notDefined n => simp +decide [Condition.directive, show Unbroken n from name]
  | greaterThan n v =>
    have bound : Unbroken (toString v) := (isWord_toString_int v).unbroken
    rw [Condition.directive]
    simp +decide only [unbroken_append, show Unbroken n from name, bound]

theorem step_otherwise (taken : Bool) :
    step d fills (s.within ⟨taken, false⟩) .otherwise = some (s.within ⟨!taken, true⟩) := rfl

theorem step_close (b : Branch) : step d fills (s.within b) .close = some s := rfl

theorem template_conditional (c : Condition) (body otherwise : List Segment) (rest : List Char) :
    (template (.conditional c body otherwise)).toList ++ rest =
      c.directive.toList ++ '\n' :: ((templates body).toList ++
        if otherwise.isEmpty then "#endif".toList ++ '\n' :: rest
        else "#else".toList ++ '\n' ::
          ((templates otherwise).toList ++ ("#endif".toList ++ '\n' :: rest))) := by
  cases otherwise <;> simp [template]

/-- The lines of a conditional whose branches are understood. The branch for the other case is only
printed when it has code. -/
theorem shows_conditional (h : IsWord c.subject) {body otherwise : List Segment}
    (inBody : Shows d fills (templates body) (renders d fills body))
    (inOtherwise : Shows d fills (templates otherwise) (renders d fills otherwise)) :
    Shows d fills (template (.conditional c body otherwise))
      (render d fills (.conditional c body otherwise)) := by
  intro rest s
  unfold Shows at inBody inOtherwise
  rw [template_conditional, run_line (unbroken_directive h) _ (read_directive c h), step_line,
    bind_some, inBody, State.enter, State.emit_within]
  cases otherwise with
  | nil =>
    rw [isEmpty_nil, if_pos rfl, run_line (by decide) _ read_endif, step_close,
      bind_some, render, renders]
  | cons x more =>
    rw [isEmpty_cons, if_neg Bool.false_ne_true, run_line (by decide) _ read_else,
      step_otherwise, bind_some, inOtherwise, State.emit_within,
      run_line (by decide) _ read_endif, step_close, bind_some, State.emit_emit, render]
    -- the branch that is not taken has added an empty text
    cases c.holds d <;> simp

mutual
theorem shows_template {x : Segment} (h : x.Clear) :
    Shows d fills x.template (x.render d fills) := by
  intro rest s
  cases x with
  | text t =>
    rw [template, render]
    exact shows_text h rest s
  | anchor id =>
    have line : (template (.anchor id)).toList ++ rest =
        ("//@anchor " ++ toString id).toList ++ '\n' :: rest := by
      simp [template]
    have unbroken : Unbroken ("//@anchor " ++ toString id) :=
      unbroken_append.mpr ⟨by decide, unbroken_repr id⟩
    rw [line, run_line unbroken rest (read_anchor id), render]
    rfl
  | conditional c body otherwise =>
    rw [Clear] at h
    exact shows_conditional h.1 (shows_templates h.2.1) (shows_templates h.2.2) rest s

theorem shows_templates {code : List Segment} (h : AllClear code) :
    Shows d fills (templates code) (renders d fills code) := by
  intro rest s
  cases code with
  | nil =>
    rw [templates, renders, s.emit_empty]
    rfl
  | cons x more =>
    rw [templates, renders, String.toList_append, List.append_assoc, shows_template h.1 _ s,
      shows_templates h.2 rest, s.emit_emit]
end

end Preprocessor

/-- Under a preprocessor a template gives the text of the code. The text spliced in at an anchor may
be any: it is not read. -/
theorem Segment.process_templates {code : List Segment} (h : AllClear code) (d : DefineSet)
    (fills : Fills) :
    Preprocessor.process d fills (templates code) = some (renders d fills code) := by
  have all : Preprocessor.run d fills (Preprocessor.lines (templates code).toList) {} =
      some (({} : Preprocessor.State).emit (renders d fills code)) := by
    rw [← List.append_nil (templates code).toList, Preprocessor.shows_templates h [] {}]
    rfl
  rw [Preprocessor.process, all, Option.bind_some]
  show some ("" ++ renders d fills code) = _
  rw [String.empty_append]

/-- Three conditionals, one of them with nothing to show in the other case. -/
def Segment.layered : List Segment :=
  [.text "a\n  b\n",
    .conditional (.greaterThan "BONES" (-1))
      [.conditional (.defined "FOG") [.anchor 7] [.text "c\n"],
        .conditional (.notDefined "FOG") [.text "d\n"] []]
      [.text "e\n"],
    .text "f\n"]

open Preprocessor in
theorem Segment.process_layered :
    AllClear layered ∧
      process { values := [("FOG", .flag true)] } [(7, "#endif\n")] (templates layered) =
        some "a\n  b\n#endif\nf\n" := by
  have plain (all : List String) (h : ∀ line ∈ all, Unbroken line ∧ Untouched line.toList) :
      PlainText (String.join (all.map (· ++ "\n"))) :=
    ⟨all, rfl, h⟩
  have clear : AllClear layered := by
    simp only [layered, AllClear, Clear, Condition.subject, and_true, true_and]
    refine ⟨plain ["a", "  b"] (by decide), ⟨by decide, ⟨⟨by decide, ?_⟩, by decide, ?_⟩, ?_⟩, ?_⟩
    · exact plain ["c"] (by decide)
    · exact plain ["d"] (by decide)
    · exact plain ["e"] (by decide)
    · exact plain ["f"] (by decide)
  refine ⟨clear, ?_⟩
  rw [process_templates clear]
  decide

end ShaderGraph
