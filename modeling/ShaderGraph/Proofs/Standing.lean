import ShaderGraph.Proofs.Logs
import ShaderGraph.Proofs.Roster

/-!
# Lines that stand in the code

A line that is written outside all regions is in the code from then on, whatever the defines and the
fills are. A line of a region is there for the defines that the region asks for.

Three kinds leave a line that one can rely on (`BuildCall.Left`): the block that writes the
position, the block that writes the color, and the fog in the fragment stage. `run_left` says so of
all calls of an emission.
-/

namespace ShaderGraph

variable {k : Kind}

open List Block Segment CodeBuffer String Emit

/-! ## 1. Texts in code -/

namespace CodeBuffer

variable {b b' : CodeBuffer} {P : DefineSet → Prop} {text : String}

/-- A text is in the code outside open regions, for all defines of which `P` holds. -/
def Stands (P : DefineSet → Prop) (text : String) (b : CodeBuffer) : Prop :=
  ∀ defines fills, P defines →
    ∃ before after, Segment.renders defines fills b.root = before ++ text ++ after

theorem Stands.grows (h : b.Grows b') (hb : b.Stands P text) : b'.Stands P text := by
  intro defines fills hP
  obtain ⟨before, after, heq⟩ := hb defines fills hP
  obtain ⟨more, hmore⟩ := h defines fills
  exact ⟨before, after ++ more, by rw [hmore, heq, String.append_assoc]⟩

theorem stands_pushText (level : b.regions = []) : (b.pushText text).Stands P text := by
  intro defines fills _
  refine ⟨Segment.renders defines fills b.root, "", ?_⟩
  unfold pushText modifyCurrent
  simp only [level]
  rw [renders_pushText, append_empty]

end CodeBuffer

/-! ## 2. Blocks -/

theorem VertexOutput.stands_build {κ : Type} {s : Site κ} {vector : Slot}
    (hv : s.inputs.find? (fun slot => slot.name == "vector") = some vector)
    (connected : vector.connected = true) (level : s.draft.code.regions = []) :
    ∃ value, (Emit.after VertexOutput.build s).draft.code.Stands (fun _ => True)
      (assignment s.draft.language.position value) := by
  unfold VertexOutput.build
  rw [after_bind_of_run (run_input hv), if_pos connected]
  exact ⟨_, stands_pushText level⟩

namespace FragmentOutput

theorem run_colorOf (rgba rgb a : Slot) (s : Site FragmentOutput) :
    ∃ color ledger, (colorOf rgba rgb a).run.run s = (.ok color, { s with ledger }) := by
  unfold colorOf
  cases rgba.connected <;> cases rgb.connected <;> cases a.connected <;> exact ⟨_, _, rfl⟩

variable {s : Site FragmentOutput} {rgba rgb a : Slot}

/-- The color is written, unless there is nothing to write and a problem is noted. -/
theorem stands_write {gammaDefine linearDefine : String}
    (hrgba : s.inputs.find? (fun slot => slot.name == "rgba") = some rgba)
    (hrgb : s.inputs.find? (fun slot => slot.name == "rgb") = some rgb)
    (ha : s.inputs.find? (fun slot => slot.name == "a") = some a)
    (level : s.draft.code.regions = [])
    (clean : (Emit.after (write gammaDefine linearDefine) s).ledger.customErrors = []) :
    ∃ value, (Emit.after (write gammaDefine linearDefine) s).draft.code.Stands (fun _ => True)
      (assignment s.draft.language.color value) := by
  obtain ⟨color, ledger, ran⟩ := run_colorOf rgba rgb a s
  unfold write at clean ⊢
  rw [after_bind_of_run (run_input hrgba), after_bind_of_run (run_input hrgb),
    after_bind_of_run (run_input ha), after_bind_of_run ran] at clean ⊢
  cases color with
  | none =>
    have noted : s.blockName ++ "[" ++ s.className ++ "]: " ++ "rgba or rgb must be connected" ∈
        pushNew (s.blockName ++ "[" ++ s.className ++ "]: " ++ "rgba or rgb must be connected")
          ledger.customErrors := mem_pushNew.mpr (.inr rfl)
    rw [show pushNew _ ledger.customErrors = [] from clean] at noted
    cases noted
  | some value =>
    refine ⟨value, CodeBuffer.Stands.grows ?_ (stands_pushText level)⟩
    have rest : Emit.Code {} Any false [] [] (do
        emitConversion linearDefine "toLinearSpace" "2.2"
        emitConversion gammaDefine "toGammaSpace" "0.45454545") :=
      .bind (emitConversion_code rfl _ _ (.lit rfl (by decide))) fun _ _ =>
        emitConversion_code rfl _ _ (.lit rfl (by decide))
    have onward := rest.grows { s with
      ledger
      draft := s.draft.push (assignment s.draft.language.color value) } ⟨trivial, nofun⟩
    exact onward.grows.draft.code

theorem stands_build (hrgba : s.inputs.find? (fun slot => slot.name == "rgba") = some rgba)
    (hrgb : s.inputs.find? (fun slot => slot.name == "rgb") = some rgb)
    (ha : s.inputs.find? (fun slot => slot.name == "a") = some a)
    (level : s.draft.code.regions = [])
    (clean : (Emit.after build s).ledger.customErrors = []) :
    ∃ value, (Emit.after build s).draft.code.Stands (fun _ => True)
      (assignment s.draft.language.color value) := by
  obtain ⟨l, -, -, opened⟩ := after_build s
  exact stands_write (by exact hrgba) (by exact hrgb) (by exact ha) level clean

end FragmentOutput

def Site.withDraft {κ : Type} (s : Site κ) (draft : StageDraft) : Site κ := { s with draft }

namespace Emit

variable {κ : Type} {s : Site κ} {d d' : StageDraft} {name : String} {output : Slot}

theorem run_push (text : String) :
    (Emit.push text : Emit κ Unit).run.run (s.withDraft d) = (.ok (), s.withDraft (d.push text)) :=
  rfl

theorem run_beginIf (c : Condition) :
    (Emit.beginIf c : Emit κ Unit).run.run (s.withDraft d) = (.ok (), s.withDraft (d.beginIf c)) :=
  rfl

theorem run_beginElse (h : d.beginElse = .ok d') :
    (Emit.beginElse : Emit κ Unit).run.run (s.withDraft d) = (.ok (), s.withDraft d') := by
  unfold Emit.beginElse
  rw [run_get_bind, show (s.withDraft d).draft.beginElse = _ from h]
  rfl

theorem run_endIf (h : d.endIf = .ok d') :
    (Emit.endIf : Emit κ Unit).run.run (s.withDraft d) = (.ok (), s.withDraft d') := by
  unfold Emit.endIf
  rw [run_get_bind, show (s.withDraft d).draft.endIf = _ from h]
  rfl

theorem run_declareOutput (expr : String)
    (h : s.outputs.find? (fun slot => slot.name == name) = some output) :
    (Emit.declareOutput name expr : Emit κ Unit).run.run (s.withDraft d) =
      (.ok (), s.withDraft (d.push (d.language.declareLet output.symbol output.type expr))) := by
  unfold Emit.declareOutput
  rw [run_bind, after, run_output (s := s.withDraft d) h]
  rfl

/-- Two ways to compute an output, the first one behind a line of its own: what stands if it is the
first one. -/
theorem stands_branches {define : String}
    (ho : s.outputs.find? (fun slot => slot.name == name) = some output)
    (level : d.code.regions = []) (line expr other : String) : (Emit.after (do
      Emit.beginIf (.defined define)
      Emit.push line
      Emit.declareOutput name expr
      Emit.beginElse
      Emit.declareOutput name other
      Emit.endIf : Emit κ Unit) (s.withDraft d)).draft.code.Stands
        (fun d => d.isDefined define = true)
        (line ++ d.language.declareLet output.symbol output.type expr) := by
  obtain ⟨stage, language, comments, ⟨root, regions⟩, rest⟩ := d
  obtain rfl : regions = [] := level
  rw [after_bind_of_run (run_beginIf _), after_bind_of_run (run_push _),
    after_bind_of_run (run_declareOutput expr ho), after_bind_of_run (run_beginElse rfl),
    after_bind_of_run (run_declareOutput other ho), after, run_endIf rfl]
  intro defines fills defined
  refine ⟨Segment.renders defines fills root, "", ?_⟩
  change Segment.renders defines fills (root ++ [.conditional (.defined define) (Segment.pushText
    (language.declareLet output.symbol output.type expr) (Segment.pushText line []))
    (Segment.pushText (language.declareLet output.symbol output.type other) [])]) = _
  rw [renders_append]
  simp only [Segment.renders, Segment.render, Condition.holds, defined, if_true,
    renders_pushText, empty_append, append_empty]

end Emit

/-- The lines by which a fog asks how much of a color is left at the distance, and puts the color of
the fog in for the rest. -/
def Language.fogged (l : Language) (factor rgb fogColor : String) (output : Slot) : String :=
  l.declareLet factor .float ("calcFogFactor(" ++ l.varyingRef .fragment FogBlock.distanceVarying ++
    ", " ++ l.uniformRef "fogParameters" ++ ")") ++
  l.declareLet output.symbol output.type
    (factor ++ " * " ++ rgb ++ " + (1.0 - " ++ factor ++ ") * " ++ fogColor)

section

variable {s : Site FogBlock} {input color output : Slot}
  (hi : s.inputs.find? (fun slot => slot.name == "input") = some input)
  (hc : s.inputs.find? (fun slot => slot.name == "fogColor") = some color)
  (ho : s.outputs.find? (fun slot => slot.name == "output") = some output)
  (fragment : s.draft.stage = .fragment) (level : s.draft.code.regions = [])
include hi hc ho fragment level

/-- The fog asks for the distance under its define. -/
theorem FogBlock.stands_buildFragment :
    ∃ factor rgb, (Emit.after buildFragment s).draft.code.Stands
      (fun d => d.isDefined "FOG" = true)
      (s.draft.language.fogged factor rgb color.symbol output) := by
  unfold buildFragment
  rw [after_bind_of_run (run_input hi), after_bind_of_run (run_input hc)]
  refine ⟨(s.ledger.freshVariable "fog").1, colorPart input, ?_⟩
  rw [Language.fogged, ← fragment]
  exact Emit.stands_branches (s := { s with ledger := (s.ledger.freshVariable "fog").2 })
    (d := (s.draft.addUniform "fogParameters" .vector4).addFunction "calcFogFactor"
      (factorFunction s.draft.language)) ho level _ _ _

theorem FogBlock.stands_build :
    ∃ factor rgb, (Emit.after FogBlock.build s).draft.code.Stands
      (fun d => d.isDefined "FOG" = true)
      (s.draft.language.fogged factor rgb color.symbol output) := by
  rw [FogBlock.after_build, fragment]
  exact stands_buildFragment (s := { s with
    kind := { built := true }
    ledger :=
      ((s.ledger.enter .defines s.block).enter .bindable s.block).enter .fallbacks s.block })
    hi hc ho fragment level

end

/-! ## 3. Calls -/

theorem Kind.eq_vertexOutput (h : k.className = "VertexOutputBlock") : k = .vertexOutput := by
  cases k with
  | vertexOutput => rfl
  | math op => cases op <;> exact absurd h (by decide)
  | _ => exact absurd h (by simp [className])

theorem Kind.exists_fragmentOutput (h : k.className = "FragmentOutputBlock") :
    ∃ f, k = .fragmentOutput f := by
  cases k with
  | fragmentOutput f => exact ⟨f, rfl⟩
  | math op => cases op <;> exact absurd h (by decide)
  | _ => exact absurd h (by simp [className])

theorem Kind.exists_fog (h : k.isFog = true) : ∃ f, k = .fog f := by
  cases k with
  | fog f => exact ⟨f, rfl⟩
  | _ => cases h

namespace Emission

variable {e e' : Emission} {stage : Stage} {id : BlockId} {g : Graph} {l : Language}
  {T : BlockId → Prop} {b : Block} {q : BuildCall}

/-- The line that a call of a block leaves in the code of its stage, if the block is one that leaves
a line. -/
structure Left (l : Language) (b : Block) (e : Emission) (q : BuildCall) : Prop where
  position : b.className = "VertexOutputBlock" → (∀ p ∈ b.inputs, p.isConnected = true) →
    ∃ value, (e.draft q.stage).code.Stands (fun _ => True) (assignment l.position value)
  color : b.className = "FragmentOutputBlock" → e.ledger.customErrors = [] →
    ∃ value, (e.draft q.stage).code.Stands (fun _ => True) (assignment l.color value)
  fog : b.kind.isFog = true → q.stage = .fragment → ∃ factor rgb output,
    q.outputs.find? (fun slot => slot.name == "output") = some output ∧
    (e.draft q.stage).code.Stands (fun d => d.isDefined "FOG" = true)
      (l.fogged factor rgb (q.symbol "fogColor") output)

theorem Left.grows (h : Left l b e q) (code : (e.draft q.stage).code.Grows (e'.draft q.stage).code)
    (errors : e.ledger.customErrors ⊆ e'.ledger.customErrors) : Left l b e' q := by
  constructor
  case position =>
    intro name linked
    obtain ⟨value, stands⟩ := h.position name linked
    exact ⟨value, stands.grows code⟩
  case color =>
    intro name clean
    obtain ⟨value, stands⟩ := h.color name (subset_nil.mp (clean ▸ errors))
    exact ⟨value, stands.grows code⟩
  case fog =>
    intro isFog fragment
    obtain ⟨factor, rgb, output, ho, stands⟩ := h.fog isFog fragment
    exact ⟨factor, rgb, output, ho, stands.grows code⟩

/-- The outputs of a kind are there when its block is called. -/
theorem Placed.exists_output {s t : Site Kind} (h : Placed stage id e e' b s t) {name : String}
    (mem : name ∈ b.kind.outputs.map SocketSpec.name) :
    ∃ slot, s.outputs.find? (fun slot => slot.name == name) = some slot := by
  refine Site.exists_output ?_
  rw [Site.outputNames, h.outputs]
  exact names_outputSlots e.graph h.fitted mem

theorem Placed.left {s t : Site Kind} (h : Placed stage id e e' b s t)
    (stages : ∀ s, (e.draft s).stage = s) (level : ∀ s, (e.draft s).code.nesting = [])
    (language : (e.draft stage).language = l) : Left l b e' ⟨id, stage, s.inputs, t.outputs⟩ := by
  have grows := e.grows_draftFor b stage
  rw [← h.draft] at grows
  rw [← grows.language] at language
  have closed : s.draft.code.regions = [] := by
    rw [h.draft, ← CodeBuffer.nesting_eq_nil_iff, nesting_draftFor, level]
  have after : (e'.draft stage).code = (Emit.after Kind.build s).draft.code := by
    rw [h.draft_eq, h.build]
  constructor
  case position =>
    intro name linked
    have kind : b.kind = .vertexOutput := Kind.eq_vertexOutput name
    obtain ⟨p, vector, hp, -, found, connected, -⟩ := h.input (i := 0) (by rw [kind]; rfl)
    have stands := VertexOutput.stands_build found
      (connected.trans (linked p (List.mem_of_getElem? hp))) closed
    rw [language] at stands
    rw [after, Kind.after_build, h.kind, kind]
    exact stands
  case color =>
    intro name clean
    obtain ⟨f, kind⟩ : ∃ f, b.kind = .fragmentOutput f := Kind.exists_fragmentOutput name
    obtain ⟨-, rgba, -, -, hrgba, -⟩ := h.input (i := 0) (by rw [kind]; rfl)
    obtain ⟨-, rgb, -, -, hrgb, -⟩ := h.input (i := 1) (by rw [kind]; rfl)
    obtain ⟨-, a, -, -, ha, -⟩ := h.input (i := 2) (by rw [kind]; rfl)
    have opened : Emit.after Kind.build s =
        (Emit.after FragmentOutput.build (s.withKind f)).withKind
          (.fragmentOutput (Emit.after FragmentOutput.build (s.withKind f)).kind) := by
      rw [Kind.after_build, h.kind, kind]
      rfl
    have none : t.ledger.customErrors = [] := List.subset_nil.mp (clean ▸ h.grows_eq.customErrors)
    rw [h.build, opened] at none
    have stands := FragmentOutput.stands_build (s := s.withKind f) hrgba hrgb ha closed none
    rw [after, opened, ← language]
    exact stands
  case fog =>
    intro isFog fragment
    obtain rfl : stage = .fragment := fragment
    obtain ⟨f, kind⟩ := Kind.exists_fog isFog
    obtain ⟨-, input, -, -, hi, -⟩ := h.input (i := 2) (by rw [kind]; rfl)
    obtain ⟨-, color, -, -, hc, -⟩ := h.input (i := 3) (by rw [kind]; rfl)
    have own : "output" ∈ b.kind.outputs.map SocketSpec.name := by
      rw [kind]
      exact List.mem_cons_self
    obtain ⟨output, ho⟩ := h.exists_output own
    obtain ⟨factor, rgb, stands⟩ := FogBlock.stands_build (s := s.withKind f) hi hc ho
      (grows.stage.trans (stages .fragment)) closed
    refine ⟨factor, rgb, output, ?_, ?_⟩
    · exact (h.outputs_eq (Kind.isFog_iff.mp isFog).1).symm ▸ ho
    · rw [after, Kind.after_build, h.kind, kind, ← language, BuildCall.symbol, hc]
      exact stands

theorem Left.of_outline {b' : Block} (same : b'.outline = b.outline) (h : Left l b e q) :
    Left l b' e q where
  position name linked := by
    refine h.position ((className_of_outline same).symm.trans name) fun p hp => ?_
    obtain ⟨i, hi⟩ := getElem?_of_mem hp
    obtain ⟨p', hp', -, link⟩ := input_of_outline same hi
    have connected := linked p' (mem_of_getElem? hp')
    rwa [InputSocket.isConnected, link] at connected
  color name := h.color ((className_of_outline same).symm.trans name)
  fog isFog := h.fog ((isFog_of_outline same).symm.trans isFog)

/-- What a step leaves alone that is no call. -/
structure Still (e e' : Emission) : Prop where
  calls : e'.calls = e.calls
  record : e'.ledger.record.2 = e.ledger.record.2
  roster : e'.ledger.roster = e.ledger.roster
  uniforms : ∀ s, (e'.draft s).uniforms = (e.draft s).uniforms
  kinds : ∀ x, (e'.graph.get? x).map Block.kind = (e.graph.get? x).map Block.kind

theorem Carried.still {source : SocketRef} {symbol : String} (h : Carried source e e' symbol) :
    Still e e' := by
  have fragment : e'.fragment.uniforms = e.fragment.uniforms := by rw [h.fragment]
  rcases h.rest with ⟨-, ledger, vertex⟩ | ⟨type, ledger, vertex⟩
  · have vertex : e'.vertex.uniforms = e.vertex.uniforms := by rw [vertex]
    exact ⟨h.calls, by rw [ledger], by rw [ledger], fun | .vertex => vertex | .fragment => fragment,
      fun x => by rw [h.graph]⟩
  · have vertex : e'.vertex.uniforms = e.vertex.uniforms := by rw [vertex]; rfl
    exact ⟨h.calls, by rw [ledger]; rfl, by rw [ledger]; rfl,
      fun | .vertex => vertex | .fragment => fragment, fun x => by rw [h.graph]⟩

theorem Still.modify (h : Still e e') {f : Block → Block} (keeps : ∀ b, (f b).id = b.id)
    (kind : ∀ b, (f b).kind = b.kind) (id : BlockId) :
    Still e { e' with graph := e'.graph.modify id f } := by
  refine ⟨h.calls, h.record, h.roster, fun s => ?_, fun x => Eq.trans ?_ (h.kinds x)⟩
  · have same := h.uniforms s
    cases s <;> exact same
  · change ((e'.graph.modify id f).get? x).map Block.kind = _
    rw [Graph.get?_modify _ _ keeps]
    split
    · rw [Option.map_map]
      exact congrArg (Option.map · _) (funext kind)
    · rfl

/-- A step is a call, or it leaves alone what only a call can change. -/
theorem Step.still_or_placed (hs : Ongoing g l e) (h : Step l stage T e e') :
    Still e e' ∨ ∃ id b s t, Placed stage id e e' b s t := by
  have refl : Still e e := ⟨rfl, rfl, rfl, fun _ => rfl, fun _ => rfl⟩
  cases h with
  | report u => exact .inl ⟨rfl, rfl, rfl, fun | .vertex => rfl | .fragment => rfl, fun _ => rfl⟩
  | @name id b hb =>
    rcases nameBlock_eq hb with ⟨-, same⟩ | ⟨-, changed⟩
    · rw [same]
      exact .inl refl
    · rw [changed]
      have named : Still e { e with ledger := (nameOutputs e.ledger b.outputs).2 } :=
        ⟨rfl, congrArg Prod.snd (record_nameOutputs e.ledger _), roster_nameOutputs _ _,
          fun | .vertex => rfl | .fragment => rfl, fun _ => rfl⟩
      exact .inl (named.modify (by intro; rfl) (by intro; rfl) id)
  | route _ _ _ _ _ _ _ _ hcarried =>
    exact .inl (hcarried.still.modify (by intro; rfl) (by intro; rfl) _)
  | carry _ hcarried => exact .inl hcarried.still
  | call _ _ _ _ _ hcall => exact .inr ⟨_, placed_call hs.regular hcall⟩

/-- Every call has left its line. -/
structure Lined (g : Graph) (l : Language) (e : Emission) : Prop where
  stages : ∀ s, (e.draft s).stage = s
  level : ∀ s, (e.draft s).code.nesting = []
  left : ∀ q ∈ e.calls, ∀ b, g.get? q.block = some b → Left l b e q

theorem Lined.step (hs : Ongoing g l e) (hstep : Step l stage T e e')
    (h : Lined g l e) : Lined g l e' where
  stages s := (hstep.draft hs s).stage.trans (h.stages s)
  level s := (hstep.nesting hs s).trans (h.level s)
  left q hq b hb := by
    have old : q ∈ e.calls → Left l b e' q := fun hq =>
      (h.left q hq b hb).grows (hstep.draft hs q.stage).code (hstep.gains hs).customErrors
    rcases hstep.still_or_placed hs with still | ⟨id, b', s, t, placed⟩
    · exact old (still.calls ▸ hq)
    · rw [placed.calls_eq, mem_append, mem_singleton] at hq
      rcases hq with hq | rfl
      · exact old hq
      · obtain ⟨b₀, hb₀, outline⟩ := Graph.exists_get?_of_outlines hs.outlines.symm placed.before
        cases hb.symm.trans hb₀
        exact (placed.left h.stages h.level (hs.language stage)).of_outline outline

theorem run_lined (hs : Ongoing g l e) (h : Lined g l e)
    {vertexNodes fragmentNodes : List BlockId} (hrun : e.run vertexNodes fragmentNodes = .ok e') :
    Lined g l e' := by
  refine run_lasts (fun hs hstep h => h.step hs hstep)
    (fun nodes _ first => ⟨?_, ?_, ?_⟩) hs hrun h
  · exact fun
      | .vertex => first.stages .vertex
      | .fragment => first.stages .fragment
  · exact fun
      | .vertex => first.level .vertex
      | .fragment => first.level .fragment
  · intro q hq b hb
    refine (first.left q hq b hb).grows ?_ (List.Subset.refl _)
    cases q.stage <;> exact .refl _

end Emission

theorem Material.emission_lined {m : Material} {e : Emission} (hg : m.graph.Proper)
    (he : m.emission = .ok e) :
    Emission.Lined m.prepare.state.graph m.options.language e := by
  refine Emission.run_lined (steady_unwritten hg)
    ⟨?_, ?_, nofun⟩ he
  · exact fun
      | .vertex => rfl
      | .fragment => rfl
  · exact fun
      | .vertex => rfl
      | .fragment => rfl

end ShaderGraph
