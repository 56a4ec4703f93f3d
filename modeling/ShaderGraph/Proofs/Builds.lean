import ShaderGraph.Proofs.Growth

/-!
# What the build of a block can do

Every kind is gone through once, step by step (`Emit.Code`). All frames of a build are read off
these steps.

* `Kind.manner` is what a kind keeps to: which state it leaves itself in, what it may declare, and
  whether it fills a varying, which only the fog does.
* `Kind.ran_build`: every kind keeps to its manner, also when it fails.
* `InputBlock.build_spec` says what an input block does besides: it declares its value and names its
  output after it, and a second build names it as the first one did.
-/

namespace ShaderGraph

open List

/-! ## 1. Kinds -/

section Kinds

variable {κ : Type} {m : Manner κ} {may : Bool} {r : List Bool} {name expr : String}

open Emit (Code Any)

theorem unifyOperands_code {left right : Slot} (hl : m.clean → Unbroken left.symbol)
    (hr : m.clean → Unbroken right.symbol) :
    Code m (fun x => Unbroken x.2.1 ∧ Unbroken x.2.2) true r r
      (unifyOperands left right : Emit κ (ValueType × String × String)) := by
  refine .bind .language fun l _ => ?_
  split
  · rename_i a b found found'
    exact .pure fun c => ⟨Language.unbroken_coerce found (hl c),
      Language.unbroken_coerce found' (hr c)⟩
  · exact .throw trivial

theorem MathOp.build_code {m : Manner MathOp} (calm : m.source = false) (op : MathOp) :
    Code m Any true [] [] op.build := by
  refine .bind (.input (.lit rfl rfl)) fun left hl =>
    .bind (.input (.lit rfl rfl)) fun right hr => ?_
  refine .bind (unifyOperands_code hl hr) fun operands h => .declareOutput calm (.lit rfl rfl)
    fun c => ?_
  exact op.unbroken_expression (h c).1 (h c).2

theorem Clamp.build_code {m : Manner Clamp} (calm : m.source = false)
    (same : ∀ {k k'}, m.alike k k' → k' = k) : Code m Any true [] [] Clamp.build := by
  refine .bind (.input (.lit rfl rfl)) fun value hv => .read (fun _ _ _ _ h => same h ▸ rfl)
    fun s _ => .bind .language fun l _ => ?_
  have bound : ∀ x : Number.Single, Unbroken
      (if value.type = .int then wholeBound x else l.splat x.literal value.type) := by
    intro x
    split
    · exact unbroken_wholeBound x
    · exact l.unbroken_splat _ x.unbroken_literal
  exact .declareOutput calm (.lit rfl rfl) fun c => by simp +decide [hv c, bound]

theorem Lerp.blendFactor_code {gradient : Slot} (type : ValueType)
    (hg : m.clean → Unbroken gradient.symbol) :
    Code m Unbroken true r r (Lerp.blendFactor gradient type : Emit κ String) := by
  refine .bind .language fun l _ => ?_
  split
  · refine .pure fun c => ?_
    have factor : Unbroken
        (if gradient.type = .int then l.castFloat gradient.symbol else gradient.symbol) := by
      split
      · exact l.unbroken_castFloat (hg c)
      · exact hg c
    cases l with
    | wgsl => exact Language.unbroken_splat _ _ factor
    | glsl => exact factor
  · split
    · rename_i g found
      exact .pure fun c => Language.unbroken_coerce found (hg c)
    · exact .throw trivial

theorem Lerp.build_code (calm : m.source = false) :
    Code m Any true [] [] (Lerp.build : Emit κ Unit) := by
  refine .bind (.input (.lit rfl rfl)) fun left hl =>
    .bind (.input (.lit rfl rfl)) fun right hr => ?_
  refine .bind (.input (.lit rfl rfl)) fun gradient hg =>
    .bind (unifyOperands_code hl hr) fun operands h =>
      .bind (blendFactor_code _ hg) fun factor hf => ?_
  exact .declareOutput calm (.lit rfl rfl) fun c => by simp +decide [h c, hf c]

theorem VectorMerger.component_code (h : Remark name) :
    Code m Unbroken true r r (VectorMerger.component name : Emit κ String) := by
  refine .bind (.input h) fun slot hs => .pure fun c => ?_
  split
  · exact hs c
  · decide

theorem VectorMerger.declareRead_code (calm : m.source = false) (h : Remark name)
    (he : m.clean → Unbroken expr) :
    Code m Any true r r (VectorMerger.declareRead name expr : Emit κ Unit) := by
  refine .bind (.output h) fun slot _ => ?_
  split
  · exact .declareOutput calm h he
  · exact .pure fun _ => trivial

theorem VectorMerger.build_code (calm : m.source = false) :
    Code m Any true [] [] (VectorMerger.build : Emit κ Unit) := by
  refine .bind .language fun l _ => .bind (.input (.lit rfl rfl)) fun xyIn hxy => ?_
  have declare : ∀ xy : String, (m.clean → Unbroken xy) → Code m Any true [] [] (do
      let z ← component "z"
      let w ← component "w"
      declareRead "xyzw"
        (ValueType.vector4.shaderName l ++ "(" ++ xy ++ ", " ++ z ++ ", " ++ w ++ ")")
      declareRead "xyz" (ValueType.vector3.shaderName l ++ "(" ++ xy ++ ", " ++ z ++ ")")
      declareRead "xy" xy : Emit κ Unit) := by
    intro xy hxy
    refine .bind (component_code (.lit rfl rfl)) fun z hz =>
      .bind (component_code (.lit rfl rfl)) fun w hw => ?_
    refine .bind (declareRead_code calm (.lit rfl rfl) fun c => ?_) fun _ _ =>
      .bind (declareRead_code calm (.lit rfl rfl) fun c => ?_) fun _ _ =>
        declareRead_code calm (.lit rfl rfl) hxy
    · simp +decide [ValueType.unbroken_shaderName, hxy c, hz c, hw c]
    · simp +decide [ValueType.unbroken_shaderName, hxy c, hz c]
  split
  · exact declare _ hxy
  · refine .bind (component_code (.lit rfl rfl)) fun x hx =>
      .bind (component_code (.lit rfl rfl)) fun y hy => declare _ fun c => ?_
    simp +decide [ValueType.unbroken_shaderName, hx c, hy c]

theorem Transform.unbroken_complete (t : Transform) (l : Language) {vector : Slot}
    (h : Unbroken vector.symbol) : Unbroken (t.complete l vector) := by
  have literal : ∀ x : Number.Single, Unbroken x.literal := Number.Single.unbroken_literal
  unfold complete
  split <;> simp +decide [ValueType.unbroken_shaderName, h, literal]

theorem Transform.build_code {m : Manner Transform} (calm : m.source = false)
    (same : ∀ {k k'}, m.alike k k' → k' = k) : Code m Any true [] [] Transform.build := by
  refine .bind (.input (.lit rfl rfl)) fun vector hv =>
    .bind (.input (.lit rfl rfl)) fun transform ht => ?_
  split
  · refine .read (fun _ _ _ _ h => same h ▸ rfl) fun s _ => .bind .language fun l _ =>
      .bind (.declareOutput calm (.lit rfl rfl) fun c => ?_) fun _ _ =>
        .bind (.output (.lit rfl rfl)) fun xyz _ => ?_
    · simp +decide [ht c, s.kind.unbroken_complete l (hv c)]
    · split
      · exact .bind (.output (.lit rfl rfl)) fun output ho =>
          .declareOutput calm (.lit rfl rfl) fun c => by simp +decide [ho c]
      · exact .pure fun _ => trivial
  · exact .pure fun _ => trivial

theorem VertexOutput.build_code (calm : m.source = false) :
    Code m Any true [] [] (VertexOutput.build : Emit κ Unit) := by
  refine .bind (.input (.lit rfl rfl)) fun vector hv => ?_
  split
  · refine .bind .language fun l _ => .push calm (fun _ => ?_) fun c => .statement ?_
    · simp only [String.append_assoc]
      cases l <;> exact .append rfl rfl _
    · simp only [unbroken_append, l.unbroken_position, true_and]
      split <;> simp +decide [ValueType.unbroken_shaderName, hv c]
  · exact .pure fun _ => trivial

theorem TeleportOut.build_code {m : Manner TeleportOut} (calm : m.source = false) :
    Code m Any true [] [] TeleportOut.build := by
  refine .read (fun _ _ _ _ _ => rfl) fun s hs => ?_
  split
  · exact .note (.append rfl rfl (by decide))
  · rename_i entry found
    split
    · exact .declareOutput calm (.lit rfl rfl) fun c =>
        hs.legible c entry (mem_append_left _ (mem_of_find?_eq_some found))
    · exact .note (.append rfl rfl (by decide))

/-! Kinds that keep what a pass gives to them read none of it while they are built. -/

namespace FragmentOutput

variable {m : Manner FragmentOutput} {value : String} (calm : m.source = false)
  (gammaDefine linearDefine : String)
include calm

theorem pushColor_code (l : Language) (h : m.clean → Unbroken value) :
    Code m Any may r r (Emit.push (l.color ++ " = " ++ value ++ ";\n")) := by
  refine .push calm (fun _ => ?_) fun c => .statement ?_
  · simp only [String.append_assoc]
    cases l <;> exact .append rfl rfl _
  · simp only [unbroken_append, l.unbroken_color, h c, and_true, true_and]
    decide

/-- A conversion asks for no output, so that nothing between the ends of its region can fail. -/
theorem emitConversion_code (define power : String) {function : String} (h : Unbroken function) :
    Code m Any false r r (emitConversion define function power) := by
  refine .bind .language fun l _ => .bind (.beginIf calm) fun _ _ => ?_
  refine .bind (.declare fun d => ⟨.addFunction d _ _, rfl, rfl, fun _ => .inl, fun _ => rfl⟩)
    fun _ _ => ?_
  have same : l.color ++ " = " ++ (function ++ "(" ++ l.color ++ ")") ++ ";\n" =
      l.color ++ " = " ++ function ++ "(" ++ l.color ++ ");\n" := by
    simp only [String.append_assoc]
    rfl
  rw [← same]
  exact .bind (pushColor_code calm l fun _ => by simp +decide [h, l.unbroken_color])
    fun _ _ => .endIf calm

omit calm in
theorem colorOf_code {rgba rgb a : Slot} (hrgba : m.clean → Unbroken rgba.symbol)
    (hrgb : m.clean → Unbroken rgb.symbol) (ha : m.clean → Unbroken a.symbol) :
    Code m (fun color => ∀ value ∈ color, Unbroken value) false r r (colorOf rgba rgb a) := by
  have blending : Code m Any false r r needsBlending :=
    .record (fun _ => .of_eq rfl rfl rfl rfl) (fun _ _ => rfl) fun _ _ => rfl
  refine .bind .language fun l _ => ?_
  split
  · split
    · refine .bind blending fun _ _ => .pure fun c => ?_
      simp +decide [ValueType.unbroken_shaderName, hrgba c, ha c]
    · exact .pure fun c => by simp [hrgba c]
  · split
    · split
      · refine .bind blending fun _ _ => .pure fun c => ?_
        simp +decide [ValueType.unbroken_shaderName, hrgb c, ha c]
      · exact .pure fun c => by simp +decide [ValueType.unbroken_shaderName, hrgb c]
    · exact .pure fun _ => nofun

/-- What is written once the two names are known. -/
def write (gammaDefine linearDefine : String) : Emit FragmentOutput Unit := do
  let rgba ← Emit.input "rgba"
  let rgb ← Emit.input "rgb"
  let a ← Emit.input "a"
  match ← colorOf rgba rgb a with
  | none => Emit.note "rgba or rgb must be connected"
  | some color => do
    Emit.push ((← Emit.language).color ++ " = " ++ color ++ ";\n")
    emitConversion linearDefine "toLinearSpace" "2.2"
    emitConversion gammaDefine "toGammaSpace" "0.45454545"

theorem write_code : Code m Any true [] [] (write gammaDefine linearDefine) := by
  refine .bind (.input (.lit rfl rfl)) fun rgba hrgba =>
    .bind (.input (.lit rfl rfl)) fun rgb hrgb => .bind (.input (.lit rfl rfl)) fun a ha => ?_
  refine .sure fun _ => .bind (colorOf_code hrgba hrgb ha) fun color hcolor => ?_
  cases color with
  | none => exact .note (.append rfl rfl (by decide))
  | some value =>
    refine .bind .language fun l _ =>
      .bind (pushColor_code calm l fun c => hcolor c value rfl) fun _ _ => ?_
    exact .bind (emitConversion_code calm _ _ (.lit rfl (by decide))) fun _ _ =>
      emitConversion_code calm _ _ (.lit rfl (by decide))

theorem build_code (any : ∀ {k k'}, m.alike k k')
    (stays : ∀ o gammaDefine linearDefine, m.stays o →
      m.stays { o with gammaDefine, linearDefine }) :
    Code m Any true [] [] FragmentOutput.build := by
  refine .bind (.enter _) fun _ _ => .bind (.freshDefine _) fun gammaDefine _ => ?_
  refine .bind (.freshDefine _) fun linearDefine _ => ?_
  exact .update (g := fun o : FragmentOutput => { o with gammaDefine, linearDefine })
    (fun o => stays o _ _) (fun _ _ _ => any) fun _ => write_code calm gammaDefine linearDefine

end FragmentOutput

namespace TextureBlock

variable {m : Manner TextureBlock} {sample sampler : String} (calm : m.source = false)
include calm

theorem emitPart_code (hs : Unbroken sample) :
    ∀ part ∈ swizzles, Code m Any true r r (emitPart sample part) := by
  have names : ∀ part ∈ swizzles, Remark part.1 := by
    intro part hpart
    simp only [swizzles, mem_cons, not_mem_nil, or_false] at hpart
    rcases hpart with rfl | rfl | rfl | rfl | rfl | rfl <;> exact .lit rfl rfl
  have parts : ∀ part ∈ swizzles, Unbroken part.2 := by decide
  intro part hpart
  refine .bind (.output (names part hpart)) fun slot _ => ?_
  split
  · exact .declareOutput calm (names part hpart) fun _ => by simp [hs, parts part hpart]
  · exact .pure fun _ => trivial

/-- What is written once the sampler is declared. -/
def write (sampler : String) : Emit TextureBlock Unit := do
  Emit.enter .texture
  Emit.enter .bindable
  Emit.enter .blocking
  let uv ← Emit.input "uv"
  let coordinates := if uv.type = .vector2 then uv.symbol else uv.symbol ++ ".xy"
  let sample ← Emit.freshVariable "tempTextureRead"
  let l ← Emit.language
  let read := l.sample (← Emit.stage) sampler coordinates
  Emit.push (l.declareLet sample .vector4 read)
  swizzles.forM (emitPart sample)

theorem write_code (hs : Unbroken sampler) : Code m Any true [] [] (write sampler) := by
  refine .bind (.enter _) fun _ _ => .bind (.enter _) fun _ _ => .bind (.enter _) fun _ _ => ?_
  refine .bind (.input (.lit rfl rfl)) fun uv huv => .fresh fun sample _ hsample =>
    .bind .language fun l _ => .bind .stage fun stage _ => ?_
  refine .bind (.pushLet calm l _ (fun _ => hsample) fun c => ?_) fun _ _ =>
    .forM (emitPart_code calm hsample)
  refine l.unbroken_sample _ hs ?_
  split
  · exact huv c
  · simp +decide [huv c]

theorem build_code (any : ∀ {k k'}, m.alike k k')
    (stays : ∀ t samplerName, m.stays t → m.stays { t with samplerName })
    (samples : m.samples = true) : Code m Any true [] [] TextureBlock.build := by
  refine .read (fun _ _ _ _ _ => rfl) fun s _ => .fresh fun sampler _ hs => ?_
  refine .update (g := fun t : TextureBlock => { t with samplerName := sampler })
    (fun t => stays t sampler) (fun _ _ _ => any) fun _ => ?_
  refine .bind (.declare fun d => ⟨.addSampler d _, rfl, rfl, fun _ => .inl, fun h => ?_⟩)
    fun _ _ => write_code calm hs
  rw [samples] at h
  cases h

end TextureBlock

namespace MorphBlock

variable {m : Manner MorphBlock} {value : String}

theorem valueOrZero_code (h : Remark name) : Code m Unbroken true r r (valueOrZero name) := by
  refine .bind (.input h) fun slot hs => ?_
  split
  · exact .pure hs
  · exact .bind .language fun l _ => .pure fun _ => l.unbroken_splat _ (by decide)

theorem declareStart_code (calm : m.source = false) (h : Remark name)
    (hv : m.clean → Unbroken value) : Code m Any true r r (declareStart name value) :=
  .bind (.output h) fun _ hs => .bind .language fun l _ =>
    .bind (.pushVar calm l _ hs hv) fun _ _ => .pure fun _ => trivial

variable (calm : m.source = false) (any : ∀ {k k'}, m.alike k k')
  (stays : ∀ k k', m.stays k → m.stays k')
include calm any stays

theorem write_code : Code m Any true [] [] write := by
  refine .bind (valueOrZero_code (.lit rfl rfl)) fun _ hp => ?_
  refine .bind (valueOrZero_code (.lit rfl rfl)) fun _ hn => ?_
  refine .bind (valueOrZero_code (.lit rfl rfl)) fun _ ht => ?_
  refine .bind (valueOrZero_code (.lit rfl rfl)) fun _ hu => ?_
  refine .bind (declareStart_code calm (.lit rfl rfl) hp) fun _ _ => ?_
  refine .bind (declareStart_code calm (.lit rfl rfl) hn) fun _ _ => ?_
  refine .bind (declareStart_code calm (.lit rfl rfl) ht) fun _ _ => ?_
  refine .bind (declareStart_code calm (.lit rfl rfl) hu) fun _ _ => ?_
  refine .sure fun _ => .bind (.beginIf calm) fun _ _ => .read (fun _ _ _ _ _ => rfl) fun s _ => ?_
  exact .bind (.anchor calm) fun _ _ => .bind (.endIf calm) fun _ _ =>
    .setKind (fun k => stays k _) any

theorem build_code : Code m Any true [] [] MorphBlock.build :=
  .bind (.enter _) fun _ _ => .bind (.enter _) fun _ _ => .bind (.enter _) fun _ _ =>
    .bind (.enter _) fun _ _ => write_code calm any stays

end MorphBlock

namespace BonesBlock

variable {m : Manner BonesBlock} {indices weights : String}

theorem unbroken_weighted (l : Language) (i : Nat) (hi : Unbroken indices)
    (hw : Unbroken weights) : Unbroken (weighted l indices weights i) := by
  have bones : Unbroken (l.uniformRef "mBones") := l.unbroken_uniformRef (.lit rfl (by decide))
  have index : Unbroken (l.castInt (indices ++ "[" ++ i.repr ++ "]")) :=
    l.unbroken_castInt (by simp +decide [hi, unbroken_repr])
  unfold weighted
  simp +decide [bones, index, hw, unbroken_repr]

theorem emitInfluence_code (calm : m.source = false) {influence : String} (i : Nat)
    (lead : ∃ number, influence = cleanName "influence" ++ number) (hf : Unbroken influence)
    (hi : m.clean → Unbroken indices) (hw : m.clean → Unbroken weights) :
    Code m Any false r r (emitInfluence influence indices weights i) := by
  refine .bind (.beginIf calm) fun _ _ => .bind .language fun l _ =>
    .bind (.push calm (fun _ => ?_) fun c => .statement ?_) fun _ _ => .endIf calm
  · obtain ⟨number, rfl⟩ := lead
    simp only [String.append_assoc]
    exact .append (l := ['i', 'n', 'f', 'l', 'u', 'e', 'n', 'c', 'e']) (by decide) rfl _
  · simp +decide [hf, unbroken_weighted l i (hi c) (hw c)]

variable (calm : m.source = false) (any : ∀ {k k'}, m.alike k k')
  (stays : ∀ k k', m.stays k → m.stays k') (output : "output" ∈ m.outputs)
include calm any stays output

/-- The inputs are read before the regions begin; the output is declared inside them. -/
theorem write_code : Code m Any true [] [] write := by
  refine .bind (.input (.lit rfl rfl)) fun _ hi => .bind (.input (.lit rfl rfl)) fun _ hw => ?_
  refine .bind (.input (.lit rfl rfl)) fun _ hworld => ?_
  refine .sure fun _ => .fresh fun _ lead hf => .bind .language fun l _ => ?_
  refine .bind (.beginIf calm) fun _ _ => .bind (.pushVar calm l _ (fun _ => hf) fun c =>
    unbroken_weighted l 0 (hi c) (hw c)) fun _ _ => ?_
  refine .bind (.forM fun i _ => emitInfluence_code calm i lead hf hi hw) fun _ _ => ?_
  refine .bind (.declareOwn calm (.lit rfl rfl) output fun c => by simp +decide [hworld c, hf])
    fun _ _ => .bind (.beginElse calm) fun _ _ => ?_
  refine .bind (.declareOwn calm (.lit rfl rfl) output hworld) fun _ _ => ?_
  exact .bind (.endIf calm) fun _ _ => .setKind (fun k => stays k _) any

theorem build_code : Code m Any true [] [] BonesBlock.build :=
  .bind (.enter _) fun _ _ => .bind (.enter _) fun _ _ => .bind (.enter _) fun _ _ =>
    .bind (.enter _) fun _ _ => write_code calm any stays output

end BonesBlock

namespace FogBlock

variable {m : Manner FogBlock} (calm : m.source = false)
include calm

def uniforms : List UniformDecl := [⟨"fogParameters", .value .vector4⟩]

/-- What the fog is mixed into: the part of its input without transparency. -/
def colorPart (input : Slot) : String :=
  match input.type with
  | .vector3 | .color3 => input.symbol
  | _ => input.symbol ++ ".rgb"

theorem buildVertex_code (fills : ¬m.neat) : Code m Any true [] [] buildVertex := by
  refine .bind (.input (.lit rfl rfl)) fun _ _ => .bind (.input (.lit rfl rfl)) fun _ _ => ?_
  refine .read (fun _ _ _ _ _ => rfl) fun _ _ => ?_
  split
  · refine .bind (.record (fun l => .addFogVarying l _) (fun h => absurd h fills) fun _ _ => rfl)
      fun _ _ => .bind .language fun _ _ => .bind .stage fun _ _ => ?_
    exact .push calm (fun h => absurd h fills) fun c => absurd (m.upright c).1 fills
  · exact .pure fun _ => trivial

variable (output : "output" ∈ m.outputs) (adds : ∀ u ∈ uniforms, m.adds u)
include output adds

theorem buildFragment_code : Code m Any true [] [] buildFragment := by
  refine .bind (.input (.lit rfl rfl)) fun input hin =>
    .bind (.input (.lit rfl rfl)) fun fogColor hcolor => ?_
  have rgb : m.clean → Unbroken (colorPart input) := by
    intro c
    unfold colorPart
    split <;> simp +decide [hin c]
  refine .sure fun _ => .bind .language fun l _ => ?_
  refine .bind (.declare fun d => ⟨.addUniform d _ _, rfl, rfl, fun u hu =>
    (mem_declare hu).imp_right fun new => adds u (mem_singleton.mpr new), fun _ => rfl⟩)
    fun _ _ => ?_
  refine .bind (.declare fun d => ⟨.addFunction d _ _, rfl, rfl, fun _ => .inl, fun _ => rfl⟩)
    fun _ _ => .fresh fun factor _ hf => .bind .stage fun stage _ =>
      .bind (.beginIf calm) fun _ _ => ?_
  refine .bind (.pushLet calm l _ (fun _ => hf) fun c => ?_) fun _ _ =>
    .bind (.declareOwn calm (.lit rfl rfl) output fun c => ?_) fun _ _ =>
      .bind (.beginElse calm) fun _ _ =>
        .bind (.declareOwn calm (.lit rfl rfl) output rgb) fun _ _ => .endIf calm
  · have distance : Unbroken (l.varyingRef stage distanceVarying) :=
      l.unbroken_varyingRef stage (.lit rfl (by decide))
    have parameters : Unbroken (l.uniformRef "fogParameters") :=
      l.unbroken_uniformRef (.lit rfl (by decide))
    simp only [unbroken_append, distance, parameters, and_true]
    exact ⟨⟨.lit rfl (by decide), by decide⟩, by decide⟩
  · simp only [unbroken_append, hf, hcolor c, and_true, true_and]
    exact ⟨⟨⟨by decide, rgb c⟩, by decide⟩, by decide⟩

variable (any : ∀ {k k'}, m.alike k k') (stays : ∀ k k', m.stays k → m.stays k')
include any stays

/-- The part for the fragment stage, behind the lists that the fog goes on. -/
theorem enterFragment_code : Code m Any true [] [] (do
    Emit.enter .defines
    Emit.enter .bindable
    Emit.enter .fallbacks
    Emit.setKind { built := true }
    buildFragment) :=
  .bind (.enter _) fun _ _ => .bind (.enter _) fun _ _ => .bind (.enter _) fun _ _ =>
    .bind (.setKind (fun k => stays k _) any) fun _ _ => buildFragment_code calm output adds

theorem build_code (fills : ¬m.neat) : Code m Any true [] [] FogBlock.build := by
  refine .bind .stage fun stage _ => ?_
  cases stage with
  | vertex => exact buildVertex_code calm fills
  | fragment => exact enterFragment_code calm output adds any stays

end FogBlock

namespace InputBlock

variable {m : Manner InputBlock} (wish : String) (same : ∀ {k k'}, m.alike k k' ↔ k' = k)
  (source : m.source = true) (adds : ∀ u, m.adds u)
  (stays : ∀ b uniformName, m.stays b → m.stays { b with uniformName })
include same source

theorem emitAttribute_code : Code m Any true r r (emitAttribute name) :=
  .read (fun _ _ _ _ h => same.mp h ▸ rfl) fun _ _ => .bind (.vertexInput source) fun _ _ =>
    .symbol source

theorem emitConstant_code (current : String) : Code m Any true r r (emitConstant current) := by
  refine .read (fun _ _ _ _ h => same.mp h ▸ rfl) fun s _ => ?_
  have declared : ∀ name, Code m Any true r r (do
      Emit.modifyDraft (·.addConstant name s.kind.type
        (s.kind.currentValue.literal s.draft.language))
      Emit.setSymbol "output" name) := fun name =>
    .bind (.declare fun d => ⟨.addConstant d _ _ _, rfl, rfl, fun _ => .inl, fun _ => rfl⟩)
      fun _ _ => .symbol source
  split
  · exact .fresh fun name _ _ => declared name
  · exact declared _

include adds stays

theorem emitUniform_code : Code m Any true r r (emitUniform wish) := by
  refine .read (fun _ _ _ _ h => same.mp h ▸ rfl) fun s hs => ?_
  have named : ∀ name, Code m Any true r r (do
      Emit.setKind { s.kind with uniformName := name }
      Emit.modifyDraft (·.addUniform name s.kind.type)
      Emit.setSymbol "output" ((← Emit.language).uniformRef name)
      Emit.enter .input
      if s.kind.animation ≠ .none then
        Emit.enter .animated
        Emit.enter .forcedBindable) := by
    intro name
    refine .bind (.setKind (fun _ _ => stays _ _ hs.kind) (same.mpr rfl)) fun _ _ => ?_
    refine .bind (.declare fun d =>
      ⟨.addUniform d _ _, rfl, rfl, fun u _ => .inr (adds u), fun _ => rfl⟩) fun _ _ => ?_
    refine .bind .language fun l _ => .bind (.symbol source) fun _ _ =>
      .bind (.enter _) fun _ _ => ?_
    split
    · exact .bind (.enter _) fun _ _ => .enter _
    · exact .pure fun _ => trivial
  dsimp only
  split
  · exact .fresh fun name _ _ => named name
  · exact named _

theorem build_code : Code m Any true [] [] build := by
  refine .bind (.output (.lit rfl rfl)) fun slot _ =>
    .read (fun _ _ _ _ h => same.mp h ▸ rfl) fun s _ => ?_
  split
  · exact emitAttribute_code same source
  · exact emitConstant_code same source _
  · exact .read (fun _ _ _ _ _ => rfl) fun _ _ => emitUniform_code _ same source adds stays
  · rename_i v _
    refine .bind (emitUniform_code _ same source adds stays) fun _ _ => .record (fun l => ?_) ?_ ?_
    · cases v <;> exact .of_eq rfl rfl rfl rfl
    · cases v <;> exact fun _ _ => rfl
    · cases v <;> exact fun _ _ => rfl

end InputBlock

end Kinds

/-! ## 2. All kinds -/

namespace Kind

open Emit (Any Code)

/-- What a kind decides whatever its settings are. -/
structure Traits where
  className : String
  inputs : List SocketSpec
  /-- The names of the outputs. -/
  outputs : List String
  isInput : Bool
  isTeleportIn : Bool
  isTeleportOut : Bool
deriving DecidableEq

def traits (k : Kind) : Traits where
  className := k.className
  inputs := k.inputs
  outputs := k.outputs.map SocketSpec.name
  isInput := k.isInput
  isTeleportIn := k.isTeleportIn
  isTeleportOut := k.isTeleportOut

/-- Two states of the kind of one block. -/
structure Alike (k k' : Kind) : Prop where
  traits : k'.traits = k.traits
  outputs : k'.outputs = k.outputs
  target : k'.target = k.target
  entry : k'.teleportEntry = k.teleportEntry

/-- A kind without what passes gave to it. -/
def bare : Kind → Kind
  | .input b => .input { b with uniformName := "" }
  | .fragmentOutput f => .fragmentOutput { gamma := f.gamma, linear := f.linear }
  | .texture t => .texture { t with samplerName := "" }
  | .morphTargets _ => .morphTargets {}
  | .bones _ => .bones {}
  | .fog _ => .fog {}
  | k => k

/-- What a kind decides has nothing to do with its leftovers. -/
theorem alike_bare (k : Kind) : k.Alike k.bare := by
  cases k <;> exact ⟨rfl, rfl, rfl, rfl⟩

theorem alike_of_bare {k k' : Kind} (h : k'.bare = k.bare) : k.Alike k' := by
  obtain ⟨traits, outputs, target, entry⟩ := k.alike_bare
  obtain ⟨traits', outputs', target', entry'⟩ := k'.alike_bare
  rw [h] at traits' outputs' target' entry'
  exact ⟨traits'.symm.trans traits, outputs'.symm.trans outputs, target'.symm.trans target,
    entry'.symm.trans entry⟩

/-- The kinds that a pass gives nothing to. -/
def isFixed : Kind → Bool
  | .input _ | .fragmentOutput _ | .texture _ | .morphTargets _ | .bones _ | .fog _ => false
  | _ => true

theorem eq_of_bare {k k' : Kind} (h : k'.bare = k.bare) (fixed : k.isFixed = true) : k' = k := by
  have whole : k.bare = k := by
    cases k <;> first | rfl | cases fixed
  rw [whole] at h
  cases k' <;> first | exact h | (rw [← h] at fixed; cases fixed)

/-- The build of a kind by itself. -/
def code : Kind → Emit Kind Unit
  | .input b => InputBlock.build.within .input b
  | .transform t => Transform.build.within .transform t
  | .vertexOutput => VertexOutput.build
  | .fragmentOutput f => FragmentOutput.build.within .fragmentOutput f
  | .math op => op.build.within .math op
  | .clamp c => Clamp.build.within .clamp c
  | .lerp => Lerp.build
  | .vectorMerger => VectorMerger.build
  | .texture t => TextureBlock.build.within .texture t
  | .morphTargets m => MorphBlock.build.within .morphTargets m
  | .bones b => BonesBlock.build.within .bones b
  | .fog f => FogBlock.build.within .fog f
  | .teleportIn => pure ()
  | .teleportOut t => TeleportOut.build.within .teleportOut t

theorem run_build (s : Site Kind) : Kind.build.run.run s = s.kind.code.run.run s := rfl

theorem after_build (s : Site Kind) : Emit.after Kind.build s = Emit.after s.kind.code s := rfl

/-- What a kind keeps to. The fog may fill a varying, and what an input block sees may hold line
breaks. -/
def manner (clean : Prop) (k : Kind) : Manner Kind where
  stays k' := k'.bare = k.bare
  source := k.isInput
  outputs := k.outputs.map SocketSpec.name
  adds u := match k with
    | .input _ => True
    | .fog _ => u ∈ FogBlock.uniforms
    | _ => False
  samples := match k with
    | .texture _ => true
    | _ => false
  neat := ∀ f, k ≠ .fog f
  clean := clean ∧ (∀ f, k ≠ .fog f) ∧ k.isInput = false
  upright := And.right

/-- Code that is made of steps, at least the code for the details of a kind. -/
inductive Made (m : Manner Kind) : Kind → Emit Kind Unit → Prop
  | whole {k : Kind} {e : Emit Kind Unit} : Code m Any true [] [] e → Made m k e
  | within {μ : Type} (wrap : μ → Kind) {details : μ} {e : Emit μ Unit} (alike : μ → μ → Prop) :
      Code (m.on alike wrap) Any true [] [] e → Made m (wrap details) (e.within wrap details)

/-- Each kind in turn. -/
theorem made_code (clean : Prop) (k : Kind) : Made (k.manner clean) k k.code := by
  cases k with
  | input b =>
    refine .within .input (e := InputBlock.build) (fun k k' => k' = k) ?_
    exact InputBlock.build_code .rfl rfl (fun _ => trivial) fun _ _ h => h
  | transform t => exact .within .transform (fun k k' => k' = k) (Transform.build_code rfl id)
  | vertexOutput => exact .whole (VertexOutput.build_code rfl)
  | fragmentOutput f =>
    refine .within .fragmentOutput (e := FragmentOutput.build) (fun _ _ => True) ?_
    exact FragmentOutput.build_code rfl trivial fun _ _ _ h => h
  | math op => exact .within .math (fun _ _ => True) (MathOp.build_code rfl op)
  | clamp c => exact .within .clamp (fun k k' => k' = k) (Clamp.build_code rfl id)
  | lerp => exact .whole (Lerp.build_code rfl)
  | vectorMerger => exact .whole (VectorMerger.build_code rfl)
  | texture t =>
    refine .within .texture (e := TextureBlock.build) (fun _ _ => True) ?_
    exact TextureBlock.build_code rfl trivial (fun _ _ h => h) rfl
  | morphTargets b =>
    refine .within .morphTargets (e := MorphBlock.build) (fun _ _ => True) ?_
    exact MorphBlock.build_code rfl trivial fun _ _ h => h
  | bones b =>
    refine .within .bones (e := BonesBlock.build) (fun _ _ => True) ?_
    exact BonesBlock.build_code rfl trivial (fun _ _ h => h) mem_cons_self
  | fog f =>
    refine .within .fog (e := FogBlock.build) (fun _ _ => True) ?_
    exact FogBlock.build_code rfl mem_cons_self (fun _ h => h) trivial (fun _ _ h => h)
      fun neat => neat f rfl
  | teleportIn => exact .whole (.pure fun _ => trivial)
  | teleportOut t => exact .within .teleportOut (fun _ _ => True) (TeleportOut.build_code rfl)

theorem Made.ran {m : Manner Kind} {k : Kind} {e : Emit Kind Unit} {s : Site Kind} (h : Made m k e)
    (hk : s.kind = k) (hs : m.Admits s) : Emit.Ran m Any s (e.run.run s) := by
  cases h with
  | whole h => exact h.grows s hs
  | @within _ _ details _ _ h =>
    obtain ⟨grows, stays, plain, result⟩ :=
      h.grows (s.withKind details) ⟨(hk ▸ hs.kind :), hs.legible⟩
    obtain ⟨inputs, outputs, vertexDraft, draft, attributes, uniforms, samplers, code, silent,
      ledger, record, block, roster, kept⟩ := grows
    exact ⟨⟨inputs, outputs, vertexDraft, draft, attributes, uniforms, samplers, code, silent,
      ledger, record, block, roster, kept⟩, stays, plain, result⟩

variable {s : Site Kind}

/-- Every kind keeps to its manner, also when it fails. -/
theorem ran_build (clean : Prop) (legible : s.kind.isInput = false → clean → s.Legible) :
    Emit.Ran (s.kind.manner clean) Any s (Kind.build.run.run s) :=
  (s.kind.made_code clean).ran rfl ⟨rfl, fun c => legible c.2.2 c.1⟩

theorem grows_build (s : Site Kind) :
    Site.Grows (s.kind.manner False) s (Emit.after Kind.build s) :=
  (ran_build False fun _ => False.elim).grows

theorem plain_build {fault : BuildFault} (h : (Kind.build.run.run s).1 = .error fault) :
    fault.Plain :=
  (ran_build False fun _ => False.elim).plain fault h

/-- A build changes no settings. -/
theorem bare_build (s : Site Kind) : (Emit.after Kind.build s).kind.bare = s.kind.bare :=
  (ran_build False fun _ => False.elim).stays

theorem kind_build (h : s.kind.isFixed = true) : (Emit.after Kind.build s).kind = s.kind :=
  eq_of_bare (bare_build s) h

end Kind

/-! ## 3. Inputs -/

theorem cleanName_ne_empty (wish : String) : cleanName wish ≠ "" := by
  unfold cleanName
  dsimp only
  split
  · decide
  · rename_i kept
    intro h
    have : (wish.toList.filter isNameChar) = [] := by simpa using congrArg String.toList h
    simp [this] at kept

theorem append_ne_empty {s : String} (h : s ≠ "") (t : String) : s ++ t ≠ "" := by
  simp [h]

theorem Ledger.freshVariable_ne_empty (l : Ledger) (wish : String) :
    (l.freshVariable wish).1 ≠ "" := by
  have hname := cleanName_ne_empty wish
  unfold Ledger.freshVariable NameTable.freshVariable
  dsimp only
  split
  · split
    · exact append_ne_empty hname "0"
    · exact hname
  · exact append_ne_empty hname _

/-- A symbol that a draft declares outside all functions. -/
def StageDraft.Declares (d : StageDraft) (symbol : String) : Prop :=
  (∃ u ∈ d.uniforms, d.language.uniformRef u.name = symbol) ∨ ∃ c ∈ d.constants, c.name = symbol

theorem StageDraft.Grows.declares {d d' : StageDraft} {symbol : String} (h : d.Grows d')
    (hd : d.Declares symbol) : d'.Declares symbol := by
  rcases hd with ⟨u, hu, hs⟩ | ⟨c, hc, hs⟩
  · exact .inl ⟨u, h.uniforms.subset hu, by rw [h.language]; exact hs⟩
  · exact .inr ⟨c, h.constants.subset hc, hs⟩

namespace InputBlock

variable {slot : Slot} (wish current : String)

/-- The symbol that an input block goes by once it was built. -/
def Named (l : Language) (b : InputBlock) (symbol : String) : Prop :=
  match b.source with
  | .attribute name => symbol = name
  | .constant => symbol ≠ ""
  | .uniform | .system _ => b.uniformName ≠ "" ∧ symbol = l.uniformRef b.uniformName

theorem emitConstant_after (s : Site InputBlock) : Emit.after (emitConstant current) s =
      let (name, ledger) :=
        if current.isEmpty then s.ledger.freshVariable s.blockName else (current, s.ledger)
      { s with
        ledger
        draft := s.draft.addConstant name s.kind.type (s.kind.currentValue.literal s.draft.language)
        outputs := Emit.setSymbol.go "output" name s.outputs } := by
  unfold emitConstant
  by_cases h : current.isEmpty = true
  · simp only [h, if_true]
    rfl
  · simp only [h]
    rfl

/-- The lists that a uniform goes on. -/
def enlist (b : InputBlock) (id : BlockId) (l : Ledger) : Ledger :=
  let l := l.enter .input id
  if b.animation ≠ .none then (l.enter .animated id).enter .forcedBindable id else l

theorem run_emitUniform (s : Site InputBlock) : (emitUniform wish).run.run s =
      let (name, ledger) :=
        if s.kind.uniformName.isEmpty then s.ledger.freshVariable wish
        else (s.kind.uniformName, s.ledger)
      (.ok (), { s with
        kind := { s.kind with uniformName := name }
        ledger := s.kind.enlist s.block ledger
        draft := s.draft.addUniform name s.kind.type
        outputs := Emit.setSymbol.go "output" (s.draft.language.uniformRef name) s.outputs }) := by
  unfold emitUniform enlist
  by_cases named : s.kind.uniformName.isEmpty = true <;>
    by_cases still : s.kind.animation = .none <;>
    simp only [Emit.run_get_bind, named, still, ne_eq, not_true_eq_false, not_false_eq_true,
      if_true, if_false, Bool.false_eq_true] <;>
    rfl

/-- What the build of an input block does at a place whose only output is `slot`: it names the
output `symbol` and declares it. -/
structure Built (slot : Slot) (s t : Site InputBlock) (symbol : String) : Prop where
  outputs : t.outputs = [{ slot with symbol }]
  named : t.kind.Named s.draft.language symbol
  /-- A second build names the output as the first one did. -/
  again : s.kind.Named s.draft.language slot.symbol → symbol = slot.symbol
  declared : s.kind.isAttribute = false → t.draft.Declares symbol
  /-- Attributes are declared in the vertex stage, also by a build for the other one. -/
  vertexDraft : t.vertexDraft = s.vertexDraft ∨
    ∃ decl, t.vertexDraft = s.vertexDraft.map (·.addAttribute decl)
  attributes : s.vertexDraft.isSome = true → t.draft.attributes = s.draft.attributes

theorem setSymbol_go (hn : slot.name = "output") (symbol : String) :
    Emit.setSymbol.go "output" symbol [slot] = [{ slot with symbol }] := by
  simp [Emit.setSymbol.go, hn]

theorem after_build {s : Site InputBlock}
    (found : s.outputs.find? (fun slot => slot.name == "output") = some slot) :
    Emit.after build s = Emit.after (match s.kind.source with
      | .attribute name => emitAttribute name
      | .constant => emitConstant slot.symbol
      | .uniform => emitUniform ("u_" ++ s.blockName)
      | .system v => do
        emitUniform v.uniformName
        Emit.modifyLedger (hint v)) s := by
  unfold build
  rw [Emit.after_bind_of_run (Emit.run_output found), Emit.after_get_bind]
  cases s.kind.source with
  | uniform => exact Emit.after_get_bind _ _
  | _ => exact rfl

variable {slot : Slot} {s : Site InputBlock}

variable (ho : s.outputs = [slot]) (hn : slot.name = "output")
include ho hn

theorem built_attribute {name : String} (hsource : s.kind.source = .attribute name) :
    Built slot s (Emit.after (emitAttribute name) s) name := by
  have named : ∀ symbol, s.kind.Named s.draft.language symbol ↔ symbol = name := by
    intro symbol
    simp only [Named, hsource]
  let decl : AttributeDecl := ⟨name, s.kind.type, attributeCondition name⟩
  have opened : Emit.after (emitAttribute name) s =
      { s with
        draft := if s.vertexDraft.isSome then s.draft else s.draft.addAttribute decl
        vertexDraft := s.vertexDraft.map (·.addAttribute decl)
        outputs := Emit.setSymbol.go "output" name s.outputs } := by
    obtain ⟨kind, block, blockName, className, inputs, outputs, draft, ledger, vertexDraft⟩ := s
    cases vertexDraft <;> rfl
  rw [opened, ho, setSymbol_go hn]
  refine ⟨rfl, (named name).mpr rfl, fun h => ((named slot.symbol).mp h).symm, ?_,
    .inr ⟨decl, rfl⟩, ?_⟩
  · intro h
    simp [isAttribute, hsource] at h
  · intro inFragment
    simp only [inFragment, if_true]

theorem built_constant (hsource : s.kind.source = .constant) :
    ∃ symbol, Built slot s (Emit.after (emitConstant slot.symbol) s) symbol := by
  have named : ∀ symbol, s.kind.Named s.draft.language symbol ↔ symbol ≠ "" := by
    intro symbol
    simp only [Named, hsource]
  have declares : ∀ (d : StageDraft) (name : String) type literal,
      (d.addConstant name type literal).Declares name := by
    intro d name type literal
    exact .inr (exists_mem_declare NamedText.name _ _)
  rw [emitConstant_after, ho]
  by_cases h : slot.symbol.isEmpty = true
  · simp only [h, if_true, setSymbol_go hn]
    refine ⟨_, rfl, (named _).mpr (Ledger.freshVariable_ne_empty _ _), ?_,
      fun _ => declares _ _ _ _, .inl rfl, fun _ => rfl⟩
    intro hs
    exact absurd (String.isEmpty_iff.mp h) ((named _).mp hs)
  · simp only [h, if_false, setSymbol_go hn, Bool.false_eq_true]
    refine ⟨slot.symbol, rfl, (named _).mpr ?_, fun _ => rfl, fun _ => declares _ _ _ _, .inl rfl,
      fun _ => rfl⟩
    exact fun hs => h (String.isEmpty_iff.mpr hs)

theorem built_uniform
    (hnamed : ∀ b : InputBlock, b.source = s.kind.source → ∀ symbol,
      b.Named s.draft.language symbol ↔
        b.uniformName ≠ "" ∧ symbol = s.draft.language.uniformRef b.uniformName) (wish : String)
    {f : Ledger → Ledger} : ∃ symbol, Built slot s
      { Emit.after (emitUniform wish) s with
        ledger := f (Emit.after (emitUniform wish) s).ledger } symbol := by
  have declares : ∀ (d : StageDraft) (name : String) type,
      (d.addUniform name type).Declares (d.language.uniformRef name) := by
    intro d name type
    obtain ⟨u, hu, hname⟩ := exists_mem_declare UniformDecl.name ⟨name, .value type⟩ d.uniforms
    exact .inl ⟨u, hu, by rw [hname]; rfl⟩
  rw [Emit.after, run_emitUniform, ho]
  by_cases h : s.kind.uniformName.isEmpty = true
  · simp only [h, if_true, setSymbol_go hn]
    have fresh := Ledger.freshVariable_ne_empty s.ledger wish
    refine ⟨_, rfl,
      (hnamed { s.kind with uniformName := (s.ledger.freshVariable wish).1 } rfl _).mpr
        ⟨fresh, rfl⟩, ?_, fun _ => declares _ _ _, .inl rfl, fun _ => rfl⟩
    intro hs
    exact absurd (String.isEmpty_iff.mp h) ((hnamed _ rfl _).mp hs).1
  · simp only [h, if_false, setSymbol_go hn, Bool.false_eq_true]
    refine ⟨_, rfl, (hnamed s.kind rfl _).mpr ⟨?_, rfl⟩, ?_, fun _ => declares _ _ _, .inl rfl,
      fun _ => rfl⟩
    · exact fun hs => h (String.isEmpty_iff.mpr hs)
    · exact fun hs => ((hnamed _ rfl _).mp hs).2.symm

/-- The build of an input block, by where its value comes from. -/
theorem build_spec : ∃ symbol, Built slot s (Emit.after build s) symbol := by
  have found : s.outputs.find? (fun slot => slot.name == "output") = some slot := by simp [ho, hn]
  rw [after_build found]
  rcases hsource : s.kind.source with name | _ | _ | v
  · exact ⟨name, built_attribute ho hn hsource⟩
  · refine built_uniform ho hn ?_ _ (f := id)
    intro b hb symbol
    simp only [Named, hb, hsource]
  · exact built_constant ho hn hsource
  · have opened : Emit.after (do emitUniform v.uniformName; Emit.modifyLedger (hint v)) s =
        { Emit.after (emitUniform v.uniformName) s with
          ledger := hint v (Emit.after (emitUniform v.uniformName) s).ledger } :=
      Emit.after_bind_of_run (x := ()) (Prod.ext (by rw [run_emitUniform]) rfl)
    rw [opened]
    refine built_uniform ho hn ?_ v.uniformName (f := hint v)
    intro b hb symbol
    simp only [Named, hb, hsource]

end InputBlock

end ShaderGraph
