import ShaderGraph.Program.DrawTarget
import ShaderGraph.Proofs.Defines
import ShaderGraph.Proofs.Roster

/-!
# Texts that are spliced in, afresh and bit by bit

A target keeps the texts of its last program and splices in again only what a change of its defines
made stale. This module shows that nothing is missed:

* `CompiledGraph.program_congr`: a program depends on the defines only by what their signature
  tells, and on the texts only by what stands at each anchor.
* `DefineSet.Tracks`: whoever writes a define that a text depends on marks the category of the text.
* `DrawTarget.same_refreshAll`: after a refresh every text is what splicing everything in afresh
  gives.
-/

namespace ShaderGraph

variable {d d' : DefineSet} {k : Kind} {dirty : DirtyFlags}

/-! ## 1. What a program depends on -/

/-- The same text at every anchor. -/
structure StageFills.Same (f f' : StageFills) : Prop where
  vertex : ∀ k, Keyed.get? k f.vertex = Keyed.get? k f'.vertex
  fragment : ∀ k, Keyed.get? k f.fragment = Keyed.get? k f'.fragment

theorem StageFills.Same.refl (f : StageFills) : f.Same f := ⟨fun _ => rfl, fun _ => rfl⟩

mutual

theorem Segment.render_congr {fills fills' : Fills} (h : d.Agrees d')
    (hf : ∀ k, Keyed.get? k fills = Keyed.get? k fills') :
    ∀ s : Segment, s.render d fills = s.render d' fills'
  | .text _ => rfl
  | .anchor id => congrArg (Option.getD · "") (hf id)
  | .conditional c body otherwise => by
    rw [render, render, h.holds c, renders_congr h hf body, renders_congr h hf otherwise]

theorem Segment.renders_congr {fills fills' : Fills} (h : d.Agrees d')
    (hf : ∀ k, Keyed.get? k fills = Keyed.get? k fills') :
    ∀ segments : List Segment, renders d fills segments = renders d' fills' segments
  | [] => rfl
  | s :: rest => by rw [renders, renders, render_congr h hf s, renders_congr h hf rest]

end

namespace MorphBlock

/-- The defines that the text of morph targets depends on. -/
def readNames : List String :=
  ["MORPHTARGETS", "NUM_MORPH_INFLUENCERS", "MORPHTARGETS_NORMAL", "MORPHTARGETS_TANGENT",
    "MORPHTARGETS_UV"]

/-- Sets that give the same text for morph targets. -/
def Alike (d d' : DefineSet) : Prop :=
  ∀ n ∈ readNames, d.isDefined n = d'.isDefined n ∧ d.count n = d'.count n

theorem Alike.of_agrees (h : d.Agrees d') : Alike d d' := fun n _ => ⟨h.isDefined n, h.count n⟩

theorem Alike.of_get? (h : ∀ n ∈ readNames, d.get? n = d'.get? n) : Alike d d' := by
  intro n hn
  simp only [DefineSet.isDefined, DefineSet.count, h n hn, and_self]

theorem Alike.influencers (h : Alike d d') : influencers d = influencers d' := by
  simp only [MorphBlock.influencers, (h "MORPHTARGETS" (by decide)).1,
    (h "NUM_MORPH_INFLUENCERS" (by decide)).2]

theorem Alike.targetLines (h : Alike d d') (n : MorphNames) (l : Language) :
    targetLines n d l = targetLines n d' l := by
  funext i
  simp only [MorphBlock.targetLines, (h "MORPHTARGETS_NORMAL" (by decide)).1,
    (h "MORPHTARGETS_TANGENT" (by decide)).1, (h "MORPHTARGETS_UV" (by decide)).1]

theorem Alike.targetAttributes (h : Alike d d') : targetAttributes d = targetAttributes d' := by
  funext i
  simp only [MorphBlock.targetAttributes, (h "MORPHTARGETS_NORMAL" (by decide)).1,
    (h "MORPHTARGETS_TANGENT" (by decide)).1, (h "MORPHTARGETS_UV" (by decide)).1]

end MorphBlock

theorem Kind.splice_congr (h : MorphBlock.Alike d d') (l : Language) (k : Kind) :
    k.splice d l = k.splice d' l := by
  cases k with
  | morphTargets m =>
    simp only [splice, MorphBlock.splice, h.influencers, h.targetLines]
  | _ => rfl

theorem Kind.dynamicDecls_congr (h : d.Agrees d') (k : Kind) :
    k.dynamicDecls d = k.dynamicDecls d' := by
  cases k with
  | morphTargets m =>
    have alike := MorphBlock.Alike.of_agrees h
    simp only [dynamicDecls, MorphBlock.dynamicDecls, alike.influencers, alike.targetAttributes]
  | bones b => simp only [dynamicDecls, BonesBlock.dynamicDecls, h.count]
  | _ => rfl

theorem Resources.active_congr (h : d.Agrees d') (r : Resources) : r.active d = r.active d' := by
  simp only [active, h.holds]

theorem Resources.inactive_congr (h : d.Agrees d') (r : Resources) :
    r.inactive d = r.inactive d' := by
  simp only [inactive, h.holds]

namespace Assembly

theorem activeVaryings_congr (h : d.Agrees d') (varyings : List VaryingDecl) :
    activeVaryings varyings d = activeVaryings varyings d' := by
  simp only [activeVaryings, h.holds]

theorem wgslAttributeValue_congr (h : d.Agrees d') :
    wgslAttributeValue d = wgslAttributeValue d' := by
  funext a
  simp only [wgslAttributeValue, h.holds]

theorem wgslVertex_congr (h : d.Agrees d') (stage : CompiledStage) (r : Resources)
    (varyings : List VaryingDecl) (body : String) :
    wgslVertex stage d r varyings body = wgslVertex stage d' r varyings body := by
  rw [wgslVertex, wgslVertex, r.active_congr h, wgslAttributeValue_congr h]

theorem glslHeader_congr (hs : d.signature = d'.signature) (r : Resources) :
    glslHeader d r = glslHeader d' r := by
  unfold glslHeader
  rw [hs]

theorem glslVertex_congr (h : d.Agrees d') (hs : d.signature = d'.signature)
    (stage : CompiledStage) (r : Resources) (varyings : List VaryingDecl) (body : String) :
    glslVertex stage d r varyings body = glslVertex stage d' r varyings body := by
  rw [glslVertex, glslVertex, glslHeader_congr hs, r.active_congr h, r.inactive_congr h]

theorem glslFragment_congr (hs : d.signature = d'.signature) (stage : CompiledStage) (r : Resources)
    (varyings : List VaryingDecl) (body : String) :
    glslFragment stage d r varyings body = glslFragment stage d' r varyings body := by
  rw [glslFragment, glslFragment, glslHeader_congr hs]

end Assembly

namespace CompiledGraph

variable (c : CompiledGraph) (g : Graph)

theorem spliceAll_congr (h : MorphBlock.Alike d d') : c.spliceAll g d = c.spliceAll g d' := by
  simp only [spliceAll, StageFills.splice, Kind.splice_congr h]

theorem resources_congr (h : d.Agrees d') : c.resources g d = c.resources g d' := by
  simp only [resources, Kind.dynamicDecls_congr h]

open Assembly in
/-- The program depends on the signature of the defines, on what they say, and on the text at each
anchor. -/
theorem program_congr {f f' : StageFills} (h : d.Agrees d') (hs : d.signature = d'.signature)
    (hf : f.Same f') : c.program g d f = c.program g d' f' := by
  simp only [program, assemble, c.resources_congr g h, activeVaryings_congr h,
    Segment.renders_congr h hf.vertex, Segment.renders_congr h hf.fragment, wgslVertex_congr h,
    glslVertex_congr h hs, glslFragment_congr hs, hs]

end CompiledGraph

/-! ## 2. Changes that are marked -/

/-- A set after defines were put into it. Where the category of the morph targets is still clean,
nothing was changed that their text depends on. -/
structure DefineSet.Tracks (d d' : DefineSet) : Prop where
  tidy : d.Tidy → d'.Tidy
  clean : d'.dirty.attributes = false → d.dirty.attributes = false
  reads : d'.dirty.attributes = false → ∀ n ∈ MorphBlock.readNames, d.get? n = d'.get? n

namespace DefineSet.Tracks

theorem refl (d : DefineSet) : d.Tracks d := ⟨id, id, fun _ _ _ => rfl⟩

theorem trans {d'' : DefineSet} (h : d.Tracks d') (h' : d'.Tracks d'') : d.Tracks d'' where
  tidy hd := h'.tidy (h.tidy hd)
  clean hc := h.clean (h'.clean hc)
  reads hc n hn := (h.reads (h'.clean hc) n hn).trans (h'.reads hc n hn)

theorem put (d : DefineSet) {name : String} (hw : IsWord name) (v : DefineValue)
    {c : DefineCategory} (hc : c = .attributes ∨ name ∉ MorphBlock.readNames) :
    d.Tracks (d.put name v c) := by
  refine ⟨fun hd => hd.put hw v c, ?_, ?_⟩
  · unfold DefineSet.put
    split
    · intro h
      cases c with
      | attributes => cases h
      | _ => exact h
    · exact id
  · intro h n hn
    rw [get?_put]
    rcases hc with rfl | hc
    · -- the category is clean only if the value was there before
      unfold DefineSet.put at h
      split at h
      · cases h
      · rename_i same
        simp only [changes, bne_iff_ne, ne_eq, Decidable.not_not] at same
        split
        · rename_i heq
          rw [← heq, same]
        · rfl
    · rw [if_neg fun heq : name = n => hc (heq ▸ hn)]

end DefineSet.Tracks

theorem DefineSet.tracks_describe (mesh : Mesh) (scene : Scene) (d : DefineSet) :
    d.Tracks (d.describe mesh scene) := by
  have uv : ∀ (indices : List Nat) (d : DefineSet), d.Tracks (indices.foldl (fun d i =>
      d.putFlag ("UV" ++ toString i) (i ≤ mesh.uvSets) .attributes) d) := by
    intro indices
    induction indices with
    | nil => exact .refl
    | cons i rest ih =>
      exact fun d => .trans (.put d (.append (by decide) (isWord_repr i)) _ (.inl rfl)) (ih _)
  unfold describe
  refine .trans ?_ (.put _ (by decide) _ (.inr (by decide)))
  refine .trans ?_ (.put _ (by decide) _ (.inr (by decide)))
  refine .trans ?_ (.put _ (by decide) _ (.inr (by decide)))
  refine .trans ?_ (.put _ (by decide) _ (.inr (by decide)))
  refine .trans ?_ (.put _ (by decide) _ (.inr (by decide)))
  refine .trans ?_ (.put _ (by decide) _ (.inr (by decide)))
  refine .trans ?_ (uv _ _)
  refine .trans ?_ (.put _ (by decide) _ (.inl rfl))
  refine .trans ?_ (.put _ (by decide) _ (.inl rfl))
  exact .put d (by decide) _ (.inl rfl)

theorem MorphBlock.tracks_prepareDefines (mesh : Mesh) (d : DefineSet) :
    d.Tracks (prepareDefines mesh d) := by
  refine .trans ?_ (.put _ (by decide) _ (.inl rfl))
  refine .trans ?_ (.put _ (by decide) _ (.inl rfl))
  refine .trans ?_ (.put _ (by decide) _ (.inl rfl))
  refine .trans ?_ (.put _ (by decide) _ (.inl rfl))
  exact .put d (by decide) _ (.inl rfl)

theorem BonesBlock.tracks_prepareDefines (mesh : Mesh) (d : DefineSet) :
    d.Tracks (prepareDefines mesh d) := by
  exact .trans (.put d (by decide) _ (.inl rfl)) (.put _ (by decide) _ (.inl rfl))

/-- The names of conversions that a pass hands out are words, and no text depends on them. -/
theorem FragmentOutput.tracks_prepareDefines {f : FragmentOutput} (h : f.Named) (d : DefineSet) :
    d.Tracks (f.prepareDefines d) := by
  have foreign : ∀ {name : String}, name.toList.head? = some 'C' → name ∉ MorphBlock.readNames := by
    intro name hname hn
    have heads : ∀ n ∈ MorphBlock.readNames, n.toList.head? ≠ some 'C' := by decide
    exact heads name hn hname
  obtain ⟨⟨i, gamma⟩, ⟨j, linear⟩⟩ := h
  unfold prepareDefines
  split
  · exact .refl d
  · rw [gamma, linear]
    refine .trans (.put d (.append (by decide) (isWord_repr i)) _ (.inr (foreign ?_)))
      (.put _ (.append (by decide) (isWord_repr j)) _ (.inr (foreign ?_)))
    · simp
    · simp

theorem Kind.tracks_prepareDefines (h : k.Named) (mesh : Mesh) (scene : Scene) (d : DefineSet) :
    d.Tracks (k.prepareDefines mesh scene d) := by
  cases k with
  | fragmentOutput f => exact f.tracks_prepareDefines h d
  | morphTargets m => exact MorphBlock.tracks_prepareDefines mesh d
  | bones b => exact BonesBlock.tracks_prepareDefines mesh d
  | fog f => exact .put d (by decide) _ (.inr (by decide))
  | _ => exact .refl d

theorem CompiledGraph.tracks_prepareDefines {c : CompiledGraph} {g : Graph}
    (h : ∀ x ∈ c.roster.blocks .defines, g.NamedAt x) (mesh : Mesh) (scene : Scene)
    (d : DefineSet) : d.Tracks (c.prepareDefines g mesh scene d) := by
  have named : ∀ b ∈ c.participants g .defines, b.kind.Named := by
    intro b hb
    obtain ⟨x, hx, hget⟩ := List.mem_filterMap.mp hb
    exact h x hx b hget
  unfold prepareDefines
  refine .trans (d.tracks_describe mesh scene) ?_
  generalize d.describe mesh scene = d
  generalize c.participants g .defines = blocks at named ⊢
  induction blocks generalizing d with
  | nil => exact .refl d
  | cons b rest ih =>
    rw [List.forall_mem_cons] at named
    exact .trans (Kind.tracks_prepareDefines named.1 mesh scene d) (ih _ named.2)

/-! ## 3. Texts that are spliced in -/

/-- The anchor that a kind fills. -/
def Kind.anchor? : Kind → Option Nat
  | .morphTargets m => m.names.map MorphNames.anchor
  | _ => none

theorem Kind.map_fst_splice (d : DefineSet) (l : Language) (k : Kind) :
    (k.splice d l).map Prod.fst = k.anchor? := by
  cases k with
  | morphTargets m => simp [splice, MorphBlock.splice, anchor?, Function.comp_def]
  | _ => rfl

namespace StageFills

variable {f f' : StageFills} {l : Language} {a : Nat} {blocks : List Block}

theorem get?_splice (f : StageFills) (k : Kind) (d : DefineSet) (l : Language) (a : Nat) :
    Keyed.get? a (f.splice k d l).vertex =
      if k.anchor? = some a then (k.splice d l).map Prod.snd else Keyed.get? a f.vertex := by
  rw [← k.map_fst_splice d l, splice]
  cases k.splice d l with
  | none => rfl
  | some s =>
    simp only [fillVertex, Keyed.get?_insert, Option.map_some, Option.some.injEq]

theorem fragment_splice (f : StageFills) (k : Kind) (d : DefineSet) (l : Language) :
    (f.splice k d l).fragment = f.fragment := by
  unfold splice
  split <;> rfl

/-- Texts that differ at anchors of the blocks only are the same once the blocks are spliced in. -/
theorem get?_foldl_splice
    (h : Keyed.get? a f.vertex = Keyed.get? a f'.vertex ∨ ∃ b ∈ blocks, b.kind.anchor? = some a) :
    Keyed.get? a (blocks.foldl (fun f b => f.splice b.kind d l) f).vertex =
      Keyed.get? a (blocks.foldl (fun f b => f.splice b.kind d l) f').vertex := by
  induction blocks generalizing f f' with
  | nil => exact h.resolve_right fun ⟨b, hb, _⟩ => nomatch hb
  | cons b rest ih =>
    refine ih ?_
    rw [get?_splice, get?_splice]
    by_cases hb : b.kind.anchor? = some a
    · exact .inl (by rw [if_pos hb, if_pos hb])
    · rw [if_neg hb, if_neg hb]
      refine h.imp_right fun ⟨c, hc, ha⟩ => ?_
      rcases List.mem_cons.mp hc with rfl | hc
      · exact absurd ha hb
      · exact ⟨c, hc, ha⟩

/-- Blocks are spliced in at their anchors and nowhere else. -/
theorem get?_foldl_splice_of_ne (f : StageFills) (h : ∀ b ∈ blocks, b.kind.anchor? ≠ some a) :
    Keyed.get? a (blocks.foldl (fun f b => f.splice b.kind d l) f).vertex =
      Keyed.get? a f.vertex := by
  induction blocks generalizing f with
  | nil => rfl
  | cons b rest ih =>
    rw [List.forall_mem_cons] at h
    rw [List.foldl_cons, ih _ h.2, get?_splice, if_neg h.1]

theorem fragment_foldl_splice (blocks : List Block) (f : StageFills) (d : DefineSet)
    (l : Language) : (blocks.foldl (fun f b => f.splice b.kind d l) f).fragment = f.fragment := by
  induction blocks generalizing f with
  | nil => rfl
  | cons b rest ih => rw [List.foldl_cons, ih, fragment_splice]

end StageFills

/-! ## 4. Refreshing a target -/

/-- A text is not stale while its category is clean. -/
theorem Kind.intersects_of_clean (k : Kind) (h : dirty.attributes = false) :
    k.spliceCategories.intersects dirty = false := by
  obtain ⟨attributes, misc, textures, lights, prepass⟩ := dirty
  obtain rfl : attributes = false := h
  cases k <;> rfl

/-- A kind whose text is not stale although the category is dirty has no text. -/
theorem Kind.splice_of_dirty (hd : dirty.attributes = true)
    (h : k.spliceCategories.intersects dirty = false) (d : DefineSet) (l : Language) :
    k.splice d l = none := by
  obtain ⟨attributes, misc, textures, lights, prepass⟩ := dirty
  obtain rfl : attributes = true := hd
  cases k with
  | morphTargets m => cases h
  | _ => rfl

namespace DrawTarget

variable {c : CompiledGraph} {g : Graph} {t : DrawTarget} {l : Language} {dirty : DirtyFlags}
  {blocks : List Block}

/-- What a target has spliced in belongs to blocks of the pass. Unless the category of the texts is
dirty, the texts are those that the defines ask for. -/
structure Spliced (c : CompiledGraph) (g : Graph) (t : DrawTarget) : Prop where
  owned : ∀ a, Keyed.get? a t.fills.vertex = none ∨
    ∃ b ∈ c.participants g .repeatable, b.kind.anchor? = some a
  fragment : ∀ a, Keyed.get? a t.fills.fragment = none
  settled : t.defines.dirty.attributes = false →
    (∀ b ∈ c.participants g .repeatable, b.id ∈ t.spliced) ∧
      t.fills.Same (c.spliceAll g t.defines)

/-- What a refresh leaves: the texts, the list of their blocks and the counts may differ. -/
structure Refreshed (blocks : List Block) (t t' : DrawTarget) : Prop where
  defines : t'.defines = t.defines
  pass : t'.pass = t.pass
  active : t'.active = t.active
  pending : t'.pending = t.pending
  spliced : t.spliced ⊆ t'.spliced
  all : ∀ b ∈ blocks, b.id ∈ t'.spliced

theorem refreshed_refresh (t : DrawTarget) (b : Block) : Refreshed [b] t (refresh l dirty t b) := by
  unfold refresh
  split
  · rename_i known
    rw [Bool.and_eq_true, List.contains_iff_mem] at known
    exact ⟨rfl, rfl, rfl, rfl, List.Subset.refl _, fun x hx => List.mem_singleton.mp hx ▸ known.1⟩
  · refine ⟨rfl, rfl, rfl, rfl, fun x hx => mem_pushNew.mpr (.inl hx), fun x hx => ?_⟩
    rw [List.mem_singleton.mp hx]
    exact mem_pushNew.mpr (.inr rfl)

theorem refreshed_foldl (blocks : List Block) (t : DrawTarget) :
    Refreshed blocks t (blocks.foldl (refresh l dirty) t) := by
  induction blocks generalizing t with
  | nil => exact ⟨rfl, rfl, rfl, rfl, List.Subset.refl _, fun _ h => absurd h List.not_mem_nil⟩
  | cons b rest ih =>
    have first : Refreshed [b] t (refresh l dirty t b) := refreshed_refresh t b
    have later := ih (refresh l dirty t b)
    refine ⟨later.defines.trans first.defines, later.pass.trans first.pass,
      later.active.trans first.active, later.pending.trans first.pending,
      List.Subset.trans first.spliced later.spliced, fun x hx => ?_⟩
    rcases List.mem_cons.mp hx with rfl | hx
    · exact later.spliced (first.all x List.mem_cons_self)
    · exact later.all x hx

theorem foldl_refresh_of_clean (clean : dirty.attributes = false)
    (h : ∀ b ∈ blocks, b.id ∈ t.spliced) : blocks.foldl (refresh l dirty) t = t := by
  induction blocks with
  | nil => rfl
  | cons b rest ih =>
    rw [List.forall_mem_cons] at h
    have same : refresh l dirty t b = t := by
      unfold refresh
      rw [if_pos]
      rw [b.kind.intersects_of_clean clean]
      simpa using h.1
    rw [List.foldl_cons, same, ih h.2]

/-- Where the category is dirty, a refresh splices everything in. -/
theorem fills_foldl_refresh (stale : dirty.attributes = true) :
    (blocks.foldl (refresh l dirty) t).fills =
      blocks.foldl (fun f b => f.splice b.kind t.defines l) t.fills := by
  induction blocks generalizing t with
  | nil => rfl
  | cons b rest ih =>
    have first : (refresh l dirty t b).fills = t.fills.splice b.kind t.defines l ∧
        (refresh l dirty t b).defines = t.defines := by
      unfold refresh
      split
      · rename_i known
        rw [Bool.and_eq_true, Bool.not_eq_true'] at known
        rw [StageFills.splice, Kind.splice_of_dirty stale known.2]
        exact ⟨rfl, rfl⟩
      · exact ⟨rfl, rfl⟩
    rw [List.foldl_cons, ih, first.1, first.2]
    rfl

theorem refreshAll_eq (t : DrawTarget) (c : CompiledGraph) (g : Graph) :
    t.refreshAll c g = (c.participants g .repeatable).foldl (refresh c.language t.defines.dirty)
      { t with defines := t.defines.markProcessed } := rfl

theorem refreshed_refreshAll (t : DrawTarget) (c : CompiledGraph) (g : Graph) :
    Refreshed (c.participants g .repeatable) { t with defines := t.defines.markProcessed }
      (t.refreshAll c g) := refreshed_foldl _ _

theorem values_refreshAll (t : DrawTarget) (c : CompiledGraph) (g : Graph) :
    (t.refreshAll c g).defines.values = t.defines.values := by
  rw [(refreshed_refreshAll t c g).defines]
  rfl

theorem clean_refreshAll (t : DrawTarget) (c : CompiledGraph) (g : Graph) :
    (t.refreshAll c g).defines.isDirty = false :=
  congrArg DefineSet.isDirty (refreshed_refreshAll t c g).defines

/-- After a refresh the texts are those that splicing everything in afresh gives. -/
theorem Spliced.same_refreshAll (h : t.Spliced c g) :
    (t.refreshAll c g).fills.Same (c.spliceAll g (t.refreshAll c g).defines) := by
  rw [(refreshed_refreshAll t c g).defines, refreshAll_eq]
  change StageFills.Same _ (c.spliceAll g t.defines.markProcessed)
  cases stale : t.defines.dirty.attributes with
  | false =>
    obtain ⟨all, same⟩ := h.settled stale
    have processed : c.spliceAll g t.defines.markProcessed = c.spliceAll g t.defines :=
      c.spliceAll_congr g (.of_get? fun _ _ => rfl)
    rw [foldl_refresh_of_clean (t := { t with defines := t.defines.markProcessed }) stale all,
      processed]
    exact same
  | true =>
    rw [fills_foldl_refresh stale]
    constructor
    · intro a
      exact StageFills.get?_foldl_splice (h.owned a)
    · intro a
      rw [StageFills.fragment_foldl_splice, CompiledGraph.spliceAll,
        StageFills.fragment_foldl_splice]
      exact h.fragment a

/-- Texts that were spliced in afresh belong to blocks of the pass. -/
theorem Spliced.of_same (all : ∀ b ∈ c.participants g .repeatable, b.id ∈ t.spliced)
    (same : t.fills.Same (c.spliceAll g t.defines)) : t.Spliced c g where
  owned a := by
    rw [same.vertex a, CompiledGraph.spliceAll]
    by_cases h : ∃ b ∈ c.participants g .repeatable, b.kind.anchor? = some a
    · exact .inr h
    · refine .inl (StageFills.get?_foldl_splice_of_ne _ fun b hb ha => ?_)
      exact h ⟨b, hb, ha⟩
  fragment a := by
    rw [same.fragment a, CompiledGraph.spliceAll, StageFills.fragment_foldl_splice]
    rfl
  settled _ := ⟨all, same⟩

/-- What is spliced in stays right when defines are put, since changes are marked. -/
theorem Spliced.of_tracks {t' : DrawTarget} (h : t.Spliced c g)
    (tracks : t.defines.Tracks t'.defines) (fills : t'.fills = t.fills)
    (spliced : t'.spliced = t.spliced) : t'.Spliced c g where
  owned := fills ▸ h.owned
  fragment := fills ▸ h.fragment
  settled clean := by
    rw [spliced, fills, ← c.spliceAll_congr g (.of_get? (tracks.reads clean))]
    exact h.settled (tracks.clean clean)

theorem spliced_moveTo {pass : PassId} (h : t.pass = pass → t.Spliced c g) :
    (t.moveTo pass).Spliced c g := by
  unfold moveTo
  split
  · rename_i same
    exact h same
  · exact ⟨fun _ => .inl rfl, fun _ => rfl, fun clean => nomatch clean⟩

end DrawTarget

end ShaderGraph
