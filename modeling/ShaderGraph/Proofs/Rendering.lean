import ShaderGraph.Proofs.Lines

/-!
# Code in the order in which it was written

Code is written from beginning to end, and what comes of it is a tree of regions. A reader of the
tree sees the texts in the order in which they were written, each of them if the regions around it
were taken (`CodeOp.inOrder`).

* `CodeBuffer.flushed` is what the code would come to if all regions were closed now. An operation
  adds its text to that, if all open regions are taken (`CodeBuffer.flushed_perform`).
* `CodeBuffer.renders_in_order`: so a run of operations adds its texts in order.
-/

namespace ShaderGraph

open Segment

/-- A region as a writer knows it while it is open. -/
structure Frame where
  condition : Condition
  /-- Whether the other branch was begun. -/
  inElse : Bool

/-- The branch that is written is the one that is taken. -/
def Frame.IsTaken (d : DefineSet) (f : Frame) : Prop :=
  f.condition.holds d = true ∧ f.inElse = false ∨ f.condition.holds d = false ∧ f.inElse = true

instance (d : DefineSet) (f : Frame) : Decidable (f.IsTaken d) :=
  inferInstanceAs (Decidable (_ ∧ _ ∨ _ ∧ _))

namespace CodeOp

/-- The text that an operation puts into the code. -/
def text (fills : Fills) : CodeOp → String
  | .push s => s
  | .assign target value => assignment target value
  | .anchor id => (Keyed.get? id fills).getD ""
  | .beginIf _ | .beginElse | .endIf => ""

/-- The regions that are open after an operation, the innermost first. An other branch and an end
are those of the innermost region; without one they mean nothing. -/
def reframe (frames : List Frame) : CodeOp → List Frame
  | .beginIf c => ⟨c, false⟩ :: frames
  | .beginElse => frames.modifyHead fun f => { f with inElse := true }
  | .endIf => frames.tail
  | .push _ | .assign _ _ | .anchor _ => frames

def frames (ops : List CodeOp) : List Frame := ops.foldl reframe []

/-- The texts of operations one after another, each of them if the regions that are open then are
taken. -/
def inOrder (d : DefineSet) (fills : Fills) (frames : List Frame) : List CodeOp → String
  | [] => ""
  | op :: ops => (if ∀ f ∈ frames, f.IsTaken d then op.text fills else "") ++
      inOrder d fills (reframe frames op) ops

end CodeOp

namespace OpenRegion

def frame (r : OpenRegion) : Frame := ⟨r.condition, r.inElse⟩

/-- The text of a region that would be closed now, with a text put where it is written to. -/
def rendered (d : DefineSet) (fills : Fills) (r : OpenRegion) (here : String) : String :=
  if r.condition.holds d then
    renders d fills r.body ++ if r.inElse then "" else here
  else renders d fills r.otherwise ++ if r.inElse then here else ""

theorem rendered_append (d : DefineSet) (fills : Fills) (r : OpenRegion) (x y : String) :
    r.rendered d fills (x ++ y) =
      r.rendered d fills x ++ if r.frame.IsTaken d then y else "" := by
  obtain ⟨c, body, otherwise, inElse⟩ := r
  cases holds : c.holds d <;> cases inElse <;>
    simp [rendered, frame, Frame.IsTaken, holds, String.append_assoc]

end OpenRegion

namespace CodeBuffer

variable {d : DefineSet} {fills : Fills} {b : CodeBuffer}

/-- The buffer after an operation. One that is refused changes nothing. -/
def perform (b : CodeBuffer) (op : CodeOp) : CodeBuffer := (b.apply op).toOption.getD b

def ofOps (ops : List CodeOp) : CodeBuffer := ops.foldl perform {}

def frames (b : CodeBuffer) : List Frame := b.regions.map OpenRegion.frame

theorem frames_modifyCurrent (b : CodeBuffer) (f : List Segment → List Segment) :
    (b.modifyCurrent f).frames = b.frames := by
  unfold modifyCurrent frames
  split
  · rfl
  · rename_i r outer h
    rw [h]
    split <;> rfl

theorem frames_perform (b : CodeBuffer) (op : CodeOp) :
    (b.perform op).frames = CodeOp.reframe b.frames op := by
  obtain ⟨root, regions⟩ := b
  cases op with
  | push s | assign target value => exact frames_modifyCurrent _ _
  | anchor id =>
    show (modifyCurrent _ (· ++ [.anchor id])).frames = _
    exact frames_modifyCurrent _ _
  | beginIf c => rfl
  | beginElse =>
    match regions with
    | [] => rfl
    | ⟨c, body, otherwise, true⟩ :: outer => rfl
    | ⟨c, body, otherwise, false⟩ :: outer => rfl
  | endIf =>
    cases regions with
    | nil => rfl
    | cons r outer =>
      show (modifyCurrent ⟨root, outer⟩
        (· ++ [.conditional r.condition r.body r.otherwise])).frames = _
      exact frames_modifyCurrent _ _

/-- The text of regions that would be closed now, with a text put where the innermost one is written
to. -/
def flush (d : DefineSet) (fills : Fills) : List OpenRegion → String → String
  | [], here => here
  | r :: outer, here => flush d fills outer (r.rendered d fills here)

def flushed (d : DefineSet) (fills : Fills) (b : CodeBuffer) : String :=
  renders d fills b.root ++ flush d fills b.regions ""

/-- What is put behind a text shows if all regions are taken. -/
theorem flush_append (regions : List OpenRegion) (x y : String) :
    flush d fills regions (x ++ y) = flush d fills regions x ++
      if ∀ f ∈ regions.map OpenRegion.frame, f.IsTaken d then y else "" := by
  induction regions generalizing x y with
  | nil => simp [flush]
  | cons r outer ih =>
    rw [flush, OpenRegion.rendered_append, ih, flush, List.map_cons]
    by_cases hr : r.frame.IsTaken d
    · simp [hr]
    · simp [hr]

theorem flush_eq (regions : List OpenRegion) (here : String) :
    flush d fills regions here = flush d fills regions "" ++
      if ∀ f ∈ regions.map OpenRegion.frame, f.IsTaken d then here else "" := by
  rw [← flush_append, String.empty_append]

theorem flushed_modifyCurrent {f : List Segment → List Segment} {text : String}
    (adds : ∀ xs, renders d fills (f xs) = renders d fills xs ++ text) :
    (b.modifyCurrent f).flushed d fills = b.flushed d fills ++
      if ∀ f ∈ b.frames, f.IsTaken d then text else "" := by
  obtain ⟨root, regions⟩ := b
  cases regions with
  | nil => simp [modifyCurrent, flushed, flush, frames, adds]
  | cons r outer =>
    have whole : (modifyCurrent ⟨root, r :: outer⟩ f).flushed d fills =
        renders d fills root ++ flush d fills (r :: outer) text := by
      unfold modifyCurrent
      cases branch : r.inElse <;>
        simp [flushed, flush, OpenRegion.rendered, branch, adds]
    rw [whole, flush_eq, flushed, String.append_assoc]
    rfl

/-- An operation adds its text, if all open regions are taken. -/
theorem flushed_perform (b : CodeBuffer) (op : CodeOp) :
    (b.perform op).flushed d fills = b.flushed d fills ++
      if ∀ f ∈ b.frames, f.IsTaken d then op.text fills else "" := by
  obtain ⟨root, regions⟩ := b
  cases op with
  | push s | assign target value => exact flushed_modifyCurrent (renders_pushText d fills _)
  | anchor id =>
    show (modifyCurrent _ (· ++ [.anchor id])).flushed d fills = _
    refine flushed_modifyCurrent fun xs => ?_
    rw [renders_append]
    simp [renders, render, CodeOp.text]
  | beginIf c =>
    have empty : ({ condition := c } : OpenRegion).rendered d fills "" = "" := by
      simp [OpenRegion.rendered, renders]
    simp only [CodeOp.text, ite_self, String.append_empty]
    exact congrArg (fun s => _ ++ flush d fills regions s) empty
  | beginElse =>
    simp only [CodeOp.text, ite_self, String.append_empty]
    match regions with
    | [] => rfl
    | ⟨c, body, otherwise, true⟩ :: outer => rfl
    | ⟨c, body, otherwise, false⟩ :: outer =>
      refine congrArg (fun s => _ ++ flush d fills outer s) ?_
      simp [OpenRegion.rendered]
  | endIf =>
    simp only [CodeOp.text, ite_self, String.append_empty]
    cases regions with
    | nil => rfl
    | cons r outer =>
      have region : renders d fills [.conditional r.condition r.body r.otherwise] =
          r.rendered d fills "" := by
        simp [renders, render, OpenRegion.rendered]
      show (modifyCurrent ⟨root, outer⟩
        (· ++ [.conditional r.condition r.body r.otherwise])).flushed d fills = _
      rw [flushed_modifyCurrent fun xs => by rw [renders_append, region]]
      rw [flushed, flushed, flush, flush_eq outer (r.rendered d fills ""), String.append_assoc]
      rfl

/-- A run of operations leaves open what the operations say, and adds their texts in order. -/
theorem flushed_run (d : DefineSet) (fills : Fills) (b : CodeBuffer) (ops : List CodeOp) :
    (ops.foldl perform b).frames = ops.foldl CodeOp.reframe b.frames ∧
      (ops.foldl perform b).flushed d fills =
        b.flushed d fills ++ CodeOp.inOrder d fills b.frames ops := by
  induction ops generalizing b with
  | nil => exact ⟨rfl, String.append_empty.symm⟩
  | cons op ops ih =>
    obtain ⟨frames, flushed⟩ := ih (b.perform op)
    rw [frames_perform] at frames flushed
    rw [flushed_perform, String.append_assoc] at flushed
    exact ⟨frames, flushed⟩

/-- Any operations can be made on code, and those that are refused change nothing. The code can be
finished if every region that was opened was closed, and only then. It renders as the texts of the
operations in their order, each of them if all the regions that were open then are taken. -/
theorem renders_in_order (ops : List CodeOp) :
    ((∃ code, (ofOps ops).segments = .ok code) ↔ CodeOp.frames ops = []) ∧
      ∀ code, (ofOps ops).segments = .ok code → ∀ d fills,
        renders d fills code = CodeOp.inOrder d fills [] ops := by
  have frames : (ofOps ops).regions = [] ↔ CodeOp.frames ops = [] := by
    rw [← List.map_eq_nil_iff (f := OpenRegion.frame)]
    exact Eq.congr_left (flushed_run {} [] {} ops).1
  unfold segments
  rw [← frames]
  cases regions : (ofOps ops).regions with
  | nil =>
    refine ⟨iff_of_true ⟨_, rfl⟩ rfl, fun code finished d fills => ?_⟩
    obtain rfl : (ofOps ops).root = code := Except.ok.inj finished
    have written := (flushed_run d fills {} ops).2
    have start : ({} : CodeBuffer).flushed d fills = "" := by simp [flushed, flush, renders]
    have closed : (ofOps ops).flushed d fills = renders d fills (ofOps ops).root := by
      rw [flushed, regions, flush, String.append_empty]
    rw [← closed]
    show (ops.foldl perform {}).flushed d fills = _
    rw [written, start, String.empty_append]
    rfl
  | cons r outer => exact ⟨iff_of_false (fun ⟨_, h⟩ => nomatch h) nofun, nofun⟩

end CodeBuffer

/-- A region in a region, with requests in between that make no sense. -/
def CodeOp.nested : List CodeOp :=
  [.endIf, .push "a", .beginIf (.defined "FOG"), .push "b", .beginIf (.greaterThan "N" 1),
    .anchor 0, .endIf, .beginElse, .push "c", .beginElse, .push "d", .endIf, .beginElse]

theorem CodeBuffer.nested_renders_in_order :
    ∃ code, (ofOps CodeOp.nested).segments = .ok code ∧
      (∀ d fills, renders d fills code = CodeOp.inOrder d fills [] CodeOp.nested) ∧
      renders { values := [("FOG", .flag true), ("N", .count 2)] } [(0, "x")] code = "abx" ∧
      renders {} [(0, "x")] code = "acd" := by
  obtain ⟨finished, rendered⟩ := renders_in_order CodeOp.nested
  obtain ⟨code, hcode⟩ := finished.mpr rfl
  have rendered := rendered code hcode
  refine ⟨code, hcode, rendered, ?_, ?_⟩
  · rw [rendered]
    decide +kernel
  · rw [rendered]
    decide +kernel

end ShaderGraph
