import ShaderGraph.Proofs.Builds
/-!
Animated uniforms.

A uniform is declared with the type that its block was made for, and what is sent to it is the value
that the block holds when a frame is drawn. An animation moves that value on, and it knows scalars
only. Main statement: over any frames before and after the declaration, the value keeps the declared
type unless an animation has moved a value that is no scalar; from then on a scalar is sent.
-/

namespace ShaderGraph

open Number

namespace InputBlock

variable {b : InputBlock}

/-- The block of a uniform, animated or not. -/
def ofUniformWith (v : Value) (animated : Bool) : InputBlock :=
  if animated then (ofUniform v).animatedWithTime else ofUniform v

def animateAll (b : InputBlock) (scenes : List Scene) : InputBlock := scenes.foldl animate b

theorem animate_of_none (still : b.animation = .none) (scene : Scene) : b.animate scene = b := by
  rw [animate, still]

theorem animation_animate (b : InputBlock) (scene : Scene) :
    (b.animate scene).animation = b.animation := by
  unfold animate
  split <;> rfl

theorem animateAll_of_none (still : b.animation = .none) (scenes : List Scene) :
    b.animateAll scenes = b := by
  induction scenes with
  | nil => rfl
  | cons scene scenes ih => rwa [animateAll, List.foldl_cons, animate_of_none still]

/-- The first frame makes a scalar of the value, and it stays one. -/
theorem type_animateAll_of_time (timed : b.animation = .time) (scene : Scene)
    (scenes : List Scene) : (b.animateAll (scene :: scenes)).currentValue.type = .float := by
  induction scenes generalizing b scene with
  | nil =>
    rw [animateAll, List.foldl_cons, animate, timed]
    rfl
  | cons next scenes ih => exact ih ((b.animation_animate scene).trans timed) next

/-- Frames change nothing but the value. -/
theorem animateAll_eq (b : InputBlock) (scenes : List Scene) :
    ∃ value, b.animateAll scenes = { b with value } := by
  induction scenes generalizing b with
  | nil => exact ⟨b.value, rfl⟩
  | cons scene scenes ih =>
    have step : ∃ value, b.animate scene = { b with value } := by
      unfold animate
      split
      · exact ⟨b.value, rfl⟩
      · exact ⟨_, rfl⟩
    obtain ⟨next, hnext⟩ := step
    obtain ⟨value, hvalue⟩ := ih (b.animate scene)
    refine ⟨value, hvalue.trans ?_⟩
    rw [hnext]

/-- The type of the value after some frames. -/
theorem type_currentValue_animateAll (b : InputBlock) (scenes : List Scene) :
    (b.animateAll scenes).currentValue.type =
      if b.animation = .none ∨ scenes = [] then b.currentValue.type else .float := by
  cases h : b.animation with
  | none => rw [animateAll_of_none h, if_pos (.inl rfl)]
  | time =>
    cases scenes with
    | nil => rfl
    | cons scene scenes => rw [type_animateAll_of_time h, if_neg (by simp)]

/-- A declaration of the uniform only gives it its name. -/
theorem kind_emitUniform (wish : String) (s : Site InputBlock) (b : InputBlock)
    (unnamed : b.uniformName = "") :
    let t := Emit.after (emitUniform wish) { s with kind := b }
    t.kind = { b with uniformName := t.kind.uniformName } ∧ t.kind.uniformName ≠ "" ∧
      t.draft = s.draft.addUniform t.kind.uniformName b.type := by
  intro t
  have made : t = Emit.after (emitUniform wish) { s with kind := b } := rfl
  rw [Emit.after, run_emitUniform] at made
  simp only [unnamed, String.isEmpty_iff, if_true] at made
  rw [made]
  exact ⟨rfl, Ledger.freshVariable_ne_empty s.ledger wish, rfl⟩

/-- The uniform of a value, drawn after the frames `later` and declared after the frames `earlier`:
it is declared with the type of the value, and what the block holds is sent to it. That has the
declared type exactly if the uniform is not animated, or no frame came, or the value is a scalar; it
is a scalar otherwise. -/
theorem type_sent_eq_declared_iff (v : Value) (animated : Bool) (earlier later : List Scene)
    (s : Site InputBlock) (wish : String) (mesh : Mesh) (scene : Scene) :
    let b := (ofUniformWith v animated).animateAll earlier
    let t := Emit.after (emitUniform wish) { s with kind := b }
    let drawn := t.kind.animateAll later
    t.draft = s.draft.addUniform drawn.uniformName v.type ∧
      drawn.bind mesh scene = [(drawn.uniformName, drawn.currentValue.bound)] ∧
      drawn.type = v.type ∧
      (drawn.currentValue.type = drawn.type ↔
        animated = false ∨ earlier ++ later = [] ∨ v.type = .float) ∧
      (drawn.currentValue.type ≠ drawn.type → drawn.currentValue.type = .float) := by
  intro b t drawn
  obtain ⟨held, made⟩ : ∃ value, b = { ofUniformWith v animated with value } :=
    animateAll_eq _ earlier
  have face : (ofUniformWith v animated).source = .uniform ∧
      (ofUniformWith v animated).type = v.type ∧ (ofUniformWith v animated).uniformName = "" ∧
      (ofUniformWith v animated).currentValue = v ∧
      ((ofUniformWith v animated).animation = .none ↔ animated = false) := by
    cases animated <;> simp [ofUniformWith, ofUniform, animatedWithTime, currentValue]
  obtain ⟨source, type, unnamed, holds, still⟩ := face
  obtain ⟨kind, named, draft⟩ := kind_emitUniform wish s b (by rw [made]; exact unnamed)
  obtain ⟨shown, frames⟩ : ∃ value, drawn = { t.kind with value } := animateAll_eq _ later
  have declared : drawn.type = v.type := by
    rw [frames, kind, made]
    exact type
  have sent : drawn.currentValue.type =
      if animated = false ∨ earlier ++ later = [] then v.type else .float := by
    have now := type_currentValue_animateAll t.kind later
    have before := type_currentValue_animateAll (ofUniformWith v animated) earlier
    have same : t.kind.currentValue = b.currentValue := by
      rw [kind]
      rfl
    have moved : t.kind.animation = .none ↔ animated = false := by
      rw [kind, made]
      exact still
    rw [now, same, before, holds]
    simp only [moved, still, List.append_eq_nil_iff]
    grind
  refine ⟨?_, ?_, declared, ?_, ?_⟩
  · have name : drawn.uniformName = t.kind.uniformName := by rw [frames]
    have kept : b.type = v.type := by rw [made]; exact type
    rw [draft, name, kept]
  · have name : drawn.uniformName ≠ "" := by rwa [frames]
    have from_uniform : drawn.source = .uniform := by
      rw [frames, kind, made]
      exact source
    rw [bind, if_neg (by simpa using name), from_uniform]
  · rw [sent, declared]
    grind
  · rw [sent, declared]
    grind

/-- A colour that is animated is declared as a colour, and a scalar is sent to it. -/
theorem animated_colour_sends_scalar :
    let b := (ofUniformWith (.color3 (Vector.replicate 3 Single.one)) true).animateAll [{}]
    b.type = .color3 ∧ b.currentValue.type = .float := by
  decide

end InputBlock

end ShaderGraph
