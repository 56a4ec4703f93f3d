import ShaderGraph.Proofs.Builds
import ShaderGraph.Proofs.Mirrors

/-!
# Builds at places that mirror each other

What a block writes depends on what it reads and on the names in the ledger, and not on which block
it is. `Emit.Agrees` is a part of a build that does the same at a place and at its copy for a block
of another identity; the states of the kind may differ at the two places, in what the part does not
read. `Kind.agrees_build`: every kind agrees with the kinds that mirror it.
-/

namespace ShaderGraph

variable {f : BlockId → BlockId} {κ μ α β : Type} {K : κ → κ → Prop}

/-- The same place for a block of another identity, with another state of its kind. -/
def Site.copy (f : BlockId → BlockId) (kind : κ) (s : Site κ) : Site κ :=
  { s with kind, block := f s.block, ledger := s.ledger.relabel f }

/-- The manner of a part of which nothing is asked but what it may read of its kind. -/
def Manner.wide (source : Bool) (alike : κ → κ → Prop) : Manner κ where
  alike := alike
  source := source
  outputs := ["output"]
  adds _ := True
  samples := true
  neat := False
  upright := False.elim

/-! ## 1. Parts of a build -/

namespace Emit

/-- A part of a build that does the same at a place and at its copies, as long as the states of the
kind are related by `K`; they stay so. -/
def Agrees (f : BlockId → BlockId) (K : κ → κ → Prop) (e : Emit κ α) : Prop :=
  ∀ s k, K s.kind k → ∃ k', K (e.after s).kind k' ∧
    e.run.run (s.copy f k) = ((e.run.run s).1, (e.after s).copy f k')

namespace Agrees

variable (wish name : String)

theorem pure (x : α) : Agrees f K (Pure.pure x : Emit κ α) := fun _ k hk => ⟨k, hk, rfl⟩

theorem throw (fault : BuildFault) : Agrees f K (MonadExcept.throw fault : Emit κ α) :=
  fun _ k hk => ⟨k, hk, rfl⟩

theorem bind {e : Emit κ α} {next : α → Emit κ β} (he : Agrees f K e)
    (hnext : ∀ x, Agrees f K (next x)) : Agrees f K (e >>= next) := by
  intro s k hk
  obtain ⟨k₁, hk₁, ran⟩ := he s k hk
  have after : e.after (s.copy f k) = (e.after s).copy f k₁ := congrArg Prod.snd ran
  rw [run_bind, run_bind, after_bind, ran, after]
  cases (e.run.run s).1 with
  | error fault => exact ⟨k₁, hk₁, rfl⟩
  | ok x => exact hnext x (e.after s) k₁ hk₁

theorem get_bind {next : Site κ → Emit κ β}
    (same : ∀ s k, K s.kind k → next (s.copy f k) = next s) (h : ∀ s, Agrees f K (next s)) :
    Agrees f K (get >>= next) := by
  intro s k hk
  obtain ⟨k', hk', ran⟩ := h s s k hk
  refine ⟨k', hk', ?_⟩
  rw [run_get_bind, same s k hk]
  exact ran

theorem modify {change : Site κ → Site κ}
    (h : ∀ s k, K s.kind k → K (change s).kind k ∧ change (s.copy f k) = (change s).copy f k) :
    Agrees f K (modify change : Emit κ PUnit) := fun s k hk =>
  ⟨k, (h s k hk).1, congrArg (fun s' => (Except.ok PUnit.unit, s')) (h s k hk).2⟩

theorem modifyDraft (change : StageDraft → StageDraft) :
    Agrees f K (Emit.modifyDraft change : Emit κ Unit) := fun _ k hk => ⟨k, hk, rfl⟩

theorem modifyLedger {change : Ledger → Ledger}
    (h : ∀ l, change (l.relabel f) = (change l).relabel f) :
    Agrees f K (Emit.modifyLedger change : Emit κ Unit) :=
  modify fun s k hk => ⟨hk, congrArg (fun ledger => { s.copy f k with ledger }) (h s.ledger)⟩

theorem setKind {kind : κ} (h : K kind kind) : Agrees f K (Emit.setKind kind : Emit κ Unit) :=
  fun _ _ _ => ⟨kind, h, rfl⟩

theorem update {g : κ → κ} (h : ∀ k k', K k k' → K (g k) (g k')) {next : Unit → Emit κ β}
    (hnext : ∀ x, Agrees f K (next x)) :
    Agrees f K (do let s ← get; Emit.setKind (g s.kind) >>= next) := fun s k hk =>
  hnext () { s with kind := g s.kind } (g k) (h s.kind k hk)

theorem output : Agrees f K (Emit.output name : Emit κ Slot) := by
  refine get_bind (fun _ _ _ => rfl) fun s => ?_
  split
  · exact pure _
  · exact throw _

theorem beginElse : Agrees f K (Emit.beginElse : Emit κ Unit) := by
  refine get_bind (fun _ _ _ => rfl) fun s => ?_
  split
  · exact modifyDraft _
  · exact throw _

theorem endIf : Agrees f K (Emit.endIf : Emit κ Unit) := by
  refine get_bind (fun _ _ _ => rfl) fun s => ?_
  split
  · exact modifyDraft _
  · exact throw _

theorem enter (hf : f.Injective) (role : Role) : Agrees f K (Emit.enter role : Emit κ Unit) :=
  modify fun s k hk =>
    ⟨hk, congrArg (fun ledger => { s.copy f k with ledger })
      (s.ledger.enter_relabel hf role s.block)⟩

end Agrees

theorem Code.agrees (source : Bool) (K : κ → κ → Prop) {Q : α → Prop} {may : Bool} {a b : List Bool}
    {e : Emit κ α} (h : Code (.wide source K) Q may a b e) (hf : f.Injective) : Agrees f K e := by
  induction h with
  | pure _ => exact .pure _
  | throw _ => exact .throw _
  | bind _ _ he hnext => exact .bind he fun x => hnext x nofun
  | @sure _ _ r _ _ ih => exact ih r
  | read same _ ih => exact .get_bind (fun s k hk => same s k _ _ hk) fun s => ih s ⟨trivial, nofun⟩
  | @fresh _ _ _ _ _ wish _ _ ih =>
    intro s k hk
    obtain ⟨number, same, -⟩ := s.ledger.names.freshVariable_spec wish
    exact ih _ ⟨number, same⟩ (s.ledger.names.unbroken_freshVariable wish)
      { s with ledger := (s.ledger.freshVariable wish).2 } k hk
  | record _ _ roster =>
    refine .modifyLedger fun l => (roster l _).trans ?_
    rw [Ledger.relabel, ← congrArg Ledger.roster (roster l l.roster)]
  | setKind _ h => exact .setKind h
  | update _ h _ ih => exact .update h ih
  | own _ _ => exact .output _
  | enter role => exact .enter hf role
  | vertexInput _ =>
    refine .modify fun s k hk => ?_
    obtain ⟨kind, block, blockName, className, inputs, outputs, draft, ledger, vertexDraft⟩ := s
    cases vertexDraft <;> exact ⟨hk, rfl⟩
  | declare _ | push _ _ _ | anchor _ | freshDefine _ | note _ | symbol _ | beginIf _ =>
    exact fun _ k hk => ⟨k, hk, rfl⟩
  | beginElse _ => exact .beginElse
  | endIf _ => exact .endIf

end Emit

/-! ## 2. Kinds -/

section Kinds

open Emit (Agrees Code)

theorem Emit.Agrees.within {K : μ → μ → Prop} {L : κ → κ → Prop} {wrap : μ → κ} {e : Emit μ α}
    (h : Agrees f K e) (wraps : ∀ d d', K d d' → L (wrap d) (wrap d')) {details details' : μ}
    (hd : K details details') (s : Site κ) :
    ∃ k, L ((e.within wrap details).after s).kind k ∧
      (e.within wrap details').run.run (s.copy f (wrap details')) =
        (((e.within wrap details).run.run s).1, ((e.within wrap details).after s).copy f k) := by
  obtain ⟨d, hd', ran⟩ := h (s.withKind details) details' hd
  refine ⟨wrap d, wraps _ _ hd', ?_⟩
  exact congrArg (fun r : Except BuildFault α × Site μ => (r.1, r.2.withKind (wrap r.2.kind))) ran

/-- A block writes the same as one that mirrors it. Input blocks read the uniform that a pass gave
to them, so that the copy must have it too. -/
theorem Kind.agrees_build (hf : f.Injective) : Agrees f (Kind.Mirrors f) Kind.build := by
  intro s k hk
  rw [run_build, run_build, after_build]
  obtain ⟨kind, block, blockName, className, inputs, outputs, draft, ledger, vertexDraft⟩ := s
  cases hk with
  | input b =>
    exact (Code.agrees true (fun d d' => d' = d)
      (InputBlock.build_code .rfl rfl (fun _ => trivial) fun _ _ _ => trivial) hf).within
      (fun _ d h => h ▸ .input d) rfl _
  | transform t =>
    exact (Code.agrees false (fun d d' => d' = d) (Transform.build_code rfl id) hf).within
      (fun _ d h => h ▸ .transform d) rfl _
  | math op =>
    exact (Code.agrees false (fun d d' => d' = d) (op.build_code rfl) hf).within
      (fun _ d h => h ▸ .math d) rfl _
  | clamp c =>
    exact (Code.agrees false (fun d d' => d' = d) (Clamp.build_code rfl id) hf).within
      (fun _ d h => h ▸ .clamp d) rfl _
  | vertexOutput => exact Code.agrees false _ (VertexOutput.build_code rfl) hf _ _ .vertexOutput
  | lerp => exact Code.agrees false _ (Lerp.build_code rfl) hf _ _ .lerp
  | vectorMerger => exact Code.agrees false _ (VectorMerger.build_code rfl) hf _ _ .vectorMerger
  | teleportIn => exact ⟨_, .teleportIn, rfl⟩
  | fragmentOutput o o' =>
    exact (Code.agrees false (fun _ _ => True)
      (FragmentOutput.build_code rfl trivial fun _ _ _ _ => trivial) hf).within
      (fun d d' _ => .fragmentOutput d d') trivial _
  | texture t t' =>
    exact (Code.agrees false (fun _ _ => True)
      (TextureBlock.build_code rfl trivial (fun _ _ _ => trivial) rfl) hf).within
      (fun d d' _ => .texture d d') trivial _
  | morphTargets b b' =>
    exact (Code.agrees false (fun _ _ => True)
      (MorphBlock.build_code rfl trivial fun _ _ _ => trivial) hf).within
      (fun d d' _ => .morphTargets d d') trivial _
  | bones b b' =>
    exact (Code.agrees false (fun _ _ => True)
      (BonesBlock.build_code rfl trivial (fun _ _ _ => trivial) List.mem_cons_self) hf).within
      (fun d d' _ => .bones d d') trivial _
  | fog b b' =>
    exact (Code.agrees false (fun _ _ => True) (FogBlock.build_code rfl List.mem_cons_self
      (fun _ _ => trivial) trivial (fun _ _ _ => trivial) id) hf).within
      (fun d d' _ => .fog d d') trivial _
  | @teleportOut t t' same =>
    exact (Code.agrees false (fun t t' => t'.entry = t.entry.map f) (TeleportOut.build_code rfl)
      hf).within (fun _ _ h => .teleportOut h) same _

end Kinds

end ShaderGraph
