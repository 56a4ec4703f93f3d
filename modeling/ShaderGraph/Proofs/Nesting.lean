import ShaderGraph.Proofs.Builds

/-!
# Regions that a build closes again

A stage can be finished only if every region of its code is closed. A block that fails keeps what it
wrote up to there, so it matters where a build can fail: between the beginning and the end of a
region it must not.

* `Emit.Takes` is a part of a build that cannot fail, with the regions that are open before it and
  after it. It needs to know the outputs that the block has, and nothing of its inputs.
* `Emit.Level` is a part of a build that may fail, with the same regions open afterwards.
* `Emit.Code.level_or_takes`: what is made of steps is one of the two.
* `Kind.nesting_build`: every kind leaves the regions as it found them, also when it fails.
-/

namespace ShaderGraph

open List CodeBuffer

/-! ## 1. Open regions -/

namespace CodeBuffer

variable {b : CodeBuffer} {inner : Bool} {outer : List Bool}

/-- The open regions, the innermost first: whether the other branch of each has begun. -/
def nesting (b : CodeBuffer) : List Bool := b.regions.map OpenRegion.inElse

@[simp] theorem nesting_eq_nil_iff : b.nesting = [] ↔ b.regions = [] := map_eq_nil_iff

@[simp] theorem nesting_modifyCurrent (b : CodeBuffer) (f : List Segment → List Segment) :
    (b.modifyCurrent f).nesting = b.nesting := by
  unfold modifyCurrent nesting
  split
  · rfl
  · rename_i r rest h
    rw [h]
    split <;> rfl

@[simp] theorem nesting_pushText (b : CodeBuffer) (s : String) :
    (b.pushText s).nesting = b.nesting := nesting_modifyCurrent b _

@[simp] theorem nesting_pushAnchor (b : CodeBuffer) (id : Nat) :
    (b.pushAnchor id).nesting = b.nesting := nesting_modifyCurrent b _

theorem beginElse_of_nesting (h : b.nesting = false :: outer) :
    ∃ b', b.beginElse = .ok b' ∧ b'.nesting = true :: outer := by
  obtain ⟨r, rest, hr, first, others⟩ := map_eq_cons_iff.mp h
  refine ⟨{ b with regions := { r with inElse := true } :: rest }, ?_, ?_⟩
  · simp [beginElse, hr, first]
  · simp [nesting, others]

theorem endIf_of_nesting (h : b.nesting = inner :: outer) :
    ∃ b', b.endIf = .ok b' ∧ b'.nesting = outer := by
  obtain ⟨r, rest, hr, -, others⟩ := map_eq_cons_iff.mp h
  refine ⟨pushSegment { b with regions := rest } (.conditional r.condition r.body r.otherwise),
    ?_, ?_⟩
  · simp [endIf, hr]
  · rw [pushSegment, nesting_modifyCurrent]
    exact others

end CodeBuffer

namespace Site

variable {κ : Type} {s : Site κ}

def nesting (s : Site κ) : List Bool := s.draft.code.nesting

def outputNames (s : Site κ) : List String := s.outputs.map Slot.name

theorem exists_output {name : String} (h : name ∈ s.outputNames) :
    ∃ slot, s.outputs.find? (fun slot => slot.name == name) = some slot := by
  obtain ⟨slot, hslot, hname⟩ := mem_map.mp h
  exact Option.isSome_iff_exists.mp
    (find?_isSome.mpr ⟨slot, hslot, by simpa using hname⟩)

end Site

/-! ## 2. Parts of a build -/

namespace Emit

variable {κ α β : Type} {m : Manner κ} {before between after : List Bool} {Q : α → Prop}

/-- A part of a build that succeeds wherever the block has the outputs that the manner knows of. The
regions that are open `before` it and `after` it are known. -/
def Takes (m : Manner κ) (before after : List Bool) (e : Emit κ α) : Prop :=
  ∀ s : Site κ, m.Admits s → m.outputs ⊆ s.outputNames → s.nesting = before →
    ∃ x s', e.run.run s = (.ok x, s') ∧ s'.outputNames = s.outputNames ∧ s'.nesting = after

namespace Takes

theorem pure (x : α) : Takes m before before (Pure.pure x : Emit κ α) :=
  fun s _ _ h => ⟨x, s, rfl, rfl, h⟩

theorem bind {e : Emit κ α} {f : α → Emit κ β} (grows : Grows m Q e)
    (he : Takes m before between e) (hf : ∀ x, (m.clean → Q x) → Takes m between after (f x)) :
    Takes m before after (e >>= f) := by
  intro s hs has open₀
  obtain ⟨x, s₁, ran, same, open₁⟩ := he s hs has open₀
  have step := grows s hs
  rw [ran] at step
  obtain ⟨y, s₂, ran', same', open₂⟩ := hf x (fun c => step.result c x rfl) s₁
    (step.grows.admits hs step.stays) (same ▸ has) open₁
  refine ⟨y, s₂, ?_, same'.trans same, open₂⟩
  rw [run_bind, Emit.after, ran]
  exact ran'

theorem modifyDraft {f : StageDraft → StageDraft}
    (h : ∀ d : StageDraft, (f d).code.nesting = d.code.nesting) :
    Takes m before before (Emit.modifyDraft f : Emit κ Unit) :=
  fun s _ _ hs => ⟨(), { s with draft := f s.draft }, rfl, rfl, (h s.draft).trans hs⟩

theorem symbol (name symbol : String) :
    Takes m before before (Emit.setSymbol name symbol : Emit κ Unit) := by
  intro s _ _ hs
  have same : ∀ slots : List Slot,
      (setSymbol.go name symbol slots).map Slot.name = slots.map Slot.name := by
    intro slots
    induction slots with
    | nil => rfl
    | cons slot rest ih =>
      unfold setSymbol.go
      split
      · rfl
      · simp [ih]
  exact ⟨(), { s with outputs := setSymbol.go name symbol s.outputs }, rfl, same s.outputs, hs⟩

theorem output {name : String} (h : name ∈ m.outputs) :
    Takes m before before (Emit.output name : Emit κ Slot) := by
  intro s _ has hs
  obtain ⟨slot, hslot⟩ := Site.exists_output (has h)
  exact ⟨slot, s, run_output hslot, rfl, hs⟩

theorem onDraft {f : StageDraft → Except CodeError StageDraft}
    (h : ∀ d : StageDraft, d.code.nesting = before → ∃ d', f d = .ok d' ∧ d'.code.nesting = after) :
    Takes m before after (do
      match f (← MonadState.get).draft with
      | .ok draft => Emit.modifyDraft fun _ => draft
      | .error e => MonadExcept.throw (.code e) : Emit κ Unit) := by
  intro s _ _ hs
  obtain ⟨draft, hd, hdraft⟩ := h s.draft hs
  refine ⟨(), { s with draft }, ?_, rfl, hdraft⟩
  rw [run_get_bind, hd]
  rfl

theorem beginElse : Takes m (false :: before) (true :: before) (Emit.beginElse : Emit κ Unit) := by
  refine onDraft fun d hd => ?_
  obtain ⟨code, begun, hcode⟩ := beginElse_of_nesting hd
  exact ⟨{ d with code }, by rw [StageDraft.beginElse, begun]; rfl, hcode⟩

theorem endIf {inner : Bool} : Takes m (inner :: before) before (Emit.endIf : Emit κ Unit) := by
  refine onDraft fun d hd => ?_
  obtain ⟨code, closed, hcode⟩ := endIf_of_nesting hd
  exact ⟨{ d with code }, by rw [StageDraft.endIf, closed]; rfl, hcode⟩

end Takes

/-- A part of a build that may fail. Where the block has the outputs that the manner knows of, the
regions are open afterwards as they were before. -/
def Level (m : Manner κ) (e : Emit κ α) : Prop :=
  ∀ s : Site κ, m.Admits s → m.outputs ⊆ s.outputNames →
    (e.after s).outputNames = s.outputNames ∧ (e.after s).nesting = s.nesting

namespace Level

theorem of_takes {e : Emit κ α} (h : ∀ regions, Takes m regions regions e) : Level m e := by
  intro s hs has
  obtain ⟨x, s', ran, same, hs'⟩ := h s.nesting s hs has rfl
  rw [Emit.after, ran]
  exact ⟨same, hs'⟩

theorem bind {e : Emit κ α} {f : α → Emit κ β} (grows : Grows m Q e) (he : Level m e)
    (hf : ∀ x, (m.clean → Q x) → Level m (f x)) : Level m (e >>= f) := by
  intro s hs has
  obtain ⟨same, level⟩ := he s hs has
  have step := grows s hs
  rw [after_bind]
  split
  · rename_i x ran
    obtain ⟨same', level'⟩ := hf x (fun c => step.result c x ran) (e.after s)
      (step.grows.admits hs step.stays) (same ▸ has)
    exact ⟨same'.trans same, level'.trans level⟩
  · exact ⟨same, level⟩

end Level

theorem Code.level_or_takes {may : Bool} {e : Emit κ α} (h : Code m Q may before after e) :
    (may = true → Level m e) ∧ (may = false → Takes m before after e) := by
  have flat : ∀ {α : Type} {e : Emit κ α} {may : Bool} {regions : List Bool},
      (∀ regions, Takes m regions regions e) →
      (may = true → Level m e) ∧ (may = false → Takes m regions regions e) :=
    fun h => ⟨fun _ => .of_takes h, fun _ => h _⟩
  induction h with
  | pure _ => exact flat fun _ => .pure _
  | throw _ => exact ⟨fun _ _ _ _ => ⟨rfl, rfl⟩, by rintro ⟨⟩⟩
  | bind first _ he hf =>
    exact ⟨fun h => .bind first.grows (he.1 h) fun x hx => (hf x hx).1 h,
      fun h => .bind first.grows (he.2 h) fun x hx => (hf x hx).2 h⟩
  | sure _ ih => exact ⟨fun _ => .of_takes fun regions => (ih regions).2 rfl, by rintro ⟨⟩⟩
  | read _ _ ih => exact ⟨fun h s hs => (ih s hs).1 h s hs, fun h s hs => (ih s hs).2 h s hs⟩
  | @fresh _ _ _ _ _ wish f _ ih =>
    have step : ∀ s, m.Admits s →
        m.Admits { s with ledger := (s.ledger.freshVariable wish).2 } := fun s hs =>
      ⟨hs.kind, hs.legible⟩
    constructor
    · intro h s hs
      obtain ⟨name, lead, unbroken, ran⟩ := run_fresh wish f s
      rw [Emit.after, ran]
      exact (ih name lead unbroken).1 h _ (step s hs)
    · intro h s hs
      obtain ⟨name, lead, unbroken, ran⟩ := run_fresh wish f s
      rw [ran]
      exact (ih name lead unbroken).2 h _ (step s hs)
  | declare h => exact flat fun _ => .modifyDraft fun d => congrArg _ (h d).code
  | push _ _ _ => exact flat fun _ => .modifyDraft fun _ => nesting_pushText _ _
  | anchor _ => exact flat fun _ => .modifyDraft fun _ => nesting_pushAnchor _ _
  | update h _ _ ih =>
    have step : ∀ s, m.Admits s → m.Admits { s with kind := _ } := fun s hs =>
      ⟨h s.kind hs.kind, hs.legible⟩
    exact ⟨fun h s hs => (ih ()).1 h _ (step s hs), fun h s hs => (ih ()).2 h _ (step s hs)⟩
  | own _ mem => exact flat fun _ => .output mem
  | symbol _ => exact flat fun _ => .symbol _ _
  | vertexInput _ =>
    refine flat fun _ s _ _ hs => ⟨(), _, rfl, ?_, ?_⟩ <;> dsimp only <;> split <;>
      first | rfl | exact hs
  | record _ _ _ | setKind _ _ | freshDefine _ | enter _ | note _ =>
    exact flat fun _ _ _ _ hs => ⟨_, _, rfl, rfl, hs⟩
  | beginIf _ => exact ⟨by rintro ⟨⟩, fun _ _ _ _ hs => ⟨_, _, rfl, rfl, congrArg (false :: ·) hs⟩⟩
  | beginElse _ => exact ⟨by rintro ⟨⟩, fun _ => .beginElse⟩
  | endIf _ => exact ⟨by rintro ⟨⟩, fun _ => .endIf⟩

end Emit

/-! ## 3. Kinds -/

theorem Kind.Made.nesting {m : Manner Kind} {k : Kind} {e : Emit Kind Unit} {s : Site Kind}
    (h : Made m k e) (hk : s.kind = k) (hs : m.Admits s) (has : m.outputs ⊆ s.outputNames) :
    (e.after s).nesting = s.nesting := by
  cases h with
  | whole h => exact (h.level_or_takes.1 rfl s hs has).2
  | @within _ _ details _ _ h =>
    exact (h.level_or_takes.1 rfl (s.withKind details) ⟨(hk ▸ hs.kind :), hs.legible⟩ has).2

/-- A build leaves the open regions as it found them, also when it fails. The outputs that it needs
for that are its own. -/
theorem Kind.nesting_build {s : Site Kind}
    (has : s.kind.outputs.map SocketSpec.name ⊆ s.outputNames) :
    (Emit.after Kind.build s).nesting = s.nesting :=
  (s.kind.made_code False).nesting rfl ⟨rfl, fun c => c.1.elim⟩ has

end ShaderGraph
