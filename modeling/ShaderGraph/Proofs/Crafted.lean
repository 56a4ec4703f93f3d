import ShaderGraph.Proofs.Materials

/-!
# Materials whose kinds are as they were made

Most of what a kind declares is fixed, but the type of an input block and the stage of an attribute
are settings. A material is crafted if nobody wrote these settings after the kind was made. Then
blocks have the sockets that their kinds declare, links fit, and the roots of each stage are the
roots whose kinds belong to it (`Material.Faithful`). No kind brings a teleport entry of its own
either, so that no teleport is without its entry (`Material.Crafted.intact`).

The class of a block decides the stages that it belongs to, an input block aside, and settings that
are written later do not change it. So a root is a root of all stages of its class and of no other
(`Material.Reachable.anchored`), however the material came about.
-/

namespace ShaderGraph

open List ShaderGraph.Graph Block Roots

/-! ## 1. Adjustments -/

theorem Block.Adjusted.shape {b b' : Block} (h : b.Adjusted b') : b'.shape = b.shape := by
  obtain ⟨⟨-, inputs, outputs, traits, -⟩, declared, target⟩ := h
  simp only [Block.shape, Block.target, inputs, outputs, traits, declared, target]

theorem Graph.Declared.adjust {g : Graph} {id : BlockId} {f : Block → Block} (hg : g.Declared)
    (h : ∀ b : Block, b.Adjusted (f b)) : (g.modify id f).Declared := by
  refine hg.of_shapes (shapes_of_map (map_get?_modify g id (fun b => (h b).id)
    fun b => (h b).shape)) ?_
  intro r s _ _ hr _ _
  rw [source?_modify r (fun b => (h b).id) fun b => (h b).inputs] at hr
  exact .inl hr

/-! ## 2. Roots -/

def Roots.of (r : Roots) : Stage → List BlockId
  | .vertex => r.vertex
  | .fragment => r.fragment

theorem Roots.of_add (r : Roots) (target : Target) (id : BlockId) (stage : Stage) :
    (r.add target id).of stage =
      if target.includes stage then pushNew id (r.of stage) else r.of stage := by
  cases stage <;> rfl

theorem Roots.of_erase (r : Roots) (id : BlockId) (stage : Stage) :
    (r.erase id).of stage = (r.of stage).filter (· != id) := by
  cases stage <;> rfl

namespace Material

variable {m m' : Material} {id x : BlockId}

/-- Every root is in the graph and, if its shape is one of `P`, is a root of the stages that it
belongs to. -/
def Staged (P : Block.Shape → Prop) (m : Material) : Prop :=
  ∀ x stage, x ∈ m.roots.of stage → ∃ b, m.graph.get? x = some b ∧
    (P b.shape → ∀ stage, x ∈ m.roots.of stage ↔ b.target.includes stage = true)

namespace Staged

variable {P : Block.Shape → Prop}

theorem of_roots_eq (h : m.roots = {}) : m.Staged P := by
  intro x stage hx
  rw [h] at hx
  cases stage <;> cases hx

section

variable (hm : m.Staged P)
include hm

/-- The graph may change as long as its blocks of these shapes stay in their stages. -/
theorem of_targets (roots : m'.roots = m.roots)
    (blocks : ∀ x b, m.graph.get? x = some b →
      ∃ b', m'.graph.get? x = some b' ∧ (P b'.shape → P b.shape ∧ b'.target = b.target)) :
    m'.Staged P := by
  intro x stage hx
  rw [roots] at hx ⊢
  obtain ⟨b, hb, staged⟩ := hm x stage hx
  obtain ⟨b', hb', target⟩ := blocks x b hb
  refine ⟨b', hb', fun hP stage => ?_⟩
  rw [staged (target hP).1, (target hP).2]

theorem addRoot (h : m.addRoot id = .ok m') : m'.Staged P := by
  obtain ⟨b, hb, -, rfl⟩ := addRoot_eq_ok_iff.mp h
  intro x stage hx
  by_cases hid : x = id
  · subst hid
    -- it may have been a root before, but then of stages that its kind belongs to
    refine ⟨b, hb, fun hP stage => ?_⟩
    rw [of_add]
    split
    · rename_i included
      exact iff_of_true (mem_pushNew.mpr (.inr rfl)) included
    · rename_i excluded
      refine iff_of_false (fun hx => ?_) excluded
      obtain ⟨c, hc, staged⟩ := hm x stage hx
      cases hb.symm.trans hc
      exact excluded ((staged hP stage).mp hx)
  · have old : ∀ stage, x ∈ (m.roots.add b.target id).of stage ↔ x ∈ m.roots.of stage := by
      intro stage
      rw [of_add]
      split
      · simp [mem_pushNew, hid]
      · rfl
    obtain ⟨c, hc, staged⟩ := hm x stage ((old stage).mp hx)
    exact ⟨c, hc, fun hP stage => (old stage).trans (staged hP stage)⟩

theorem removeRoot (id : BlockId) : (m.removeRoot id).Staged P := by
  intro x stage hx
  rw [Material.removeRoot, of_erase, mem_filter] at hx
  obtain ⟨b, hb, staged⟩ := hm x stage hx.1
  refine ⟨b, hb, fun hP stage => ?_⟩
  rw [Material.removeRoot, of_erase, mem_filter, staged hP]
  exact and_iff_left hx.2

theorem of_shapes (roots : m'.roots = m.roots)
    (shapes : ∀ x, (m'.graph.get? x).map Block.shape = (m.graph.get? x).map Block.shape) :
    m'.Staged P := by
  refine hm.of_targets roots fun x b hb => ?_
  obtain ⟨b', hb', same⟩ := shapes_of_map (fun x => (shapes x).symm) x b hb
  exact ⟨b', hb', fun hP => ⟨same ▸ hP, target_of_shape same.symm⟩⟩

theorem disconnect {t : SocketRef} {graph : Graph} (h : m.graph.disconnect t = .ok graph) :
    ({ m with graph } : Material).Staged P := by
  rcases disconnect_eq_ok h with rfl | ⟨s, -, rfl⟩
  · exact hm
  · exact hm.of_shapes rfl (map_cut unjoined_shape m.graph s t)

theorem removeBlock (id : BlockId) : (m.removeBlock id).1.Staged P := by
  intro x stage hx
  obtain ⟨b, hb, staged⟩ := hm.removeRoot id x stage hx
  have other : x ≠ id := by
    change x ∈ (m.roots.erase id).of stage at hx
    rw [of_erase, mem_filter] at hx
    simpa using hx.2
  have stays : x ∈ (m.graph.remove id).1.ids := by
    rw [Graph.Coherent.ids_remove, mem_filter]
    exact ⟨mem_ids_iff.mpr ⟨b, hb⟩, by simpa using other⟩
  obtain ⟨b', hb'⟩ := mem_ids_iff.mp stays
  obtain ⟨c, hc, same⟩ := Graph.Proper.shapes_remove m.graph id x b' hb'
  cases hb.symm.trans hc
  refine ⟨b', hb', fun hP stage => ?_⟩
  rw [target_of_shape same]
  exact staged (same ▸ hP) stage

theorem build (hg : m.graph.Proper) : m.build.2.Staged P := by
  refine hm.of_targets (graph_build m).1 fun x b hb => ?_
  obtain ⟨b', hb', same⟩ := (extends_build hg).blocks x b hb
  exact ⟨b', hb', fun hP => ⟨same ▸ hP, target_of_shape same⟩⟩

theorem of_blocks (blocks : m'.graph.blocks = m.graph.blocks) (roots : m'.roots = m.roots) :
    m'.Staged P := by
  refine hm.of_shapes roots fun x => ?_
  rw [Graph.get?, blocks]
  rfl

end

theorem stable (P : Block.Shape → Prop) : Stable Handed (Staged P) where
  lasting := lasting_handed
  addBlock {m} name kind hm _ := by
    refine hm.of_targets rfl fun x b hb => ⟨b, ?_, fun hP => ⟨hP, rfl⟩⟩
    change (m.graph.insert name kind).get? x = some b
    rw [get?_insert, hb]
    rfl
  connect {m s t _} hm h := by
    obtain ⟨-, -, rfl⟩ := connect_eq_ok_iff.mp h
    exact hm.of_shapes rfl (map_link unjoined_shape m.graph s t)
  setTeleportEntry {m out entry _} hm h := by
    obtain ⟨-, rfl⟩ := setTeleportEntry_eq_ok_iff.mp h
    exact hm.of_shapes rfl (m.graph.map_shape_withEntry out entry)
  addRoot hm h := hm.addRoot h
  adjust {m} id _ hm h := hm.of_shapes rfl
    (map_get?_modify m.graph id (fun b => (h b).id) fun b => (h b).shape)
  clear _ := .of_roots_eq rfl
  tune hm graph roots _ _ _ := hm.of_blocks (congrArg Graph.blocks graph) roots

end Staged

/-- Every root is in the graph, and is a root of the stages that it belongs to. -/
structure Rooted (m : Material) : Prop where
  distinct : ∀ stage, (m.roots.of stage).Nodup
  staged : ∀ x stage, x ∈ m.roots.of stage → ∃ b, m.graph.get? x = some b ∧
    ∀ stage, x ∈ m.roots.of stage ↔ b.target.includes stage = true

namespace Rooted

theorem of_staged (distinct : ∀ stage, (m.roots.of stage).Nodup)
    (staged : m.Staged fun _ => True) : m.Rooted where
  distinct := distinct
  staged x stage hx := by
    obtain ⟨b, hb, staged⟩ := staged x stage hx
    exact ⟨b, hb, staged trivial⟩

theorem staged_all (hm : m.Rooted) : m.Staged fun _ => True := by
  intro x stage hx
  obtain ⟨b, hb, staged⟩ := hm.staged x stage hx
  exact ⟨b, hb, fun _ => staged⟩

theorem of_roots_eq (h : m.roots = {}) : m.Rooted := by
  refine of_staged (fun stage => ?_) (.of_roots_eq h)
  rw [h]
  cases stage <;> exact nodup_nil

theorem addRoot (hm : m.Rooted) (h : m.addRoot id = .ok m') : m'.Rooted := by
  refine of_staged (fun stage => ?_) (hm.staged_all.addRoot h)
  obtain ⟨b, -, -, rfl⟩ := addRoot_eq_ok_iff.mp h
  rw [of_add]
  split
  · exact nodup_pushNew (hm.distinct stage)
  · exact hm.distinct stage

theorem removeRoot (hm : m.Rooted) (id : BlockId) : (m.removeRoot id).Rooted := by
  refine of_staged (fun stage => ?_) (hm.staged_all.removeRoot id)
  rw [Material.removeRoot, of_erase]
  exact (hm.distinct stage).filter _

theorem removeBlock (hm : m.Rooted) (id : BlockId) : (m.removeBlock id).1.Rooted :=
  of_staged (hm.removeRoot id).distinct (hm.staged_all.removeBlock id)

end Rooted

end Material

/-! ## 3. Classes and stages -/

/-- The stages that a class belongs to, input blocks aside. -/
def targetOfClass (name : String) : Target :=
  if name = "VertexOutputBlock" ∨ name = "MorphTargetsBlock" ∨ name = "BonesBlock" then .vertex
  else if name = "FragmentOutputBlock" ∨ name = "TextureBlock" then .fragment
  else if name = "FogBlock" then .vertexAndFragment
  else .neutral

theorem Kind.target_eq {k : Kind} (h : k.isInput = false) :
    k.target = targetOfClass k.className := by
  cases k with
  | input b => cases h
  | math op => cases op <;> rfl
  | _ => rfl

theorem Kind.target_of_traits {k k' : Kind} (traits : k'.traits = k.traits)
    (h : k'.isInput = false) : k.isInput = false ∧ k'.target = k.target := by
  have input : k.isInput = false := (congrArg Traits.isInput traits).symm.trans h
  have name : k'.className = k.className := congrArg Traits.className traits
  rw [target_eq h, target_eq input, name]
  exact ⟨input, rfl⟩

namespace Material

variable {m : Material}

/-- A root that is no input block is a root of the stages that it belongs to. -/
def Anchored (m : Material) : Prop := m.Staged fun s => s.traits.isInput = false

theorem Reachable.anchored (hm : m.Reachable) : m.Anchored := by
  induction hm with
  | new name options nextId => exact .of_roots_eq rfl
  | addBlock name kind _ recalls ih =>
    exact (Staged.stable _).addBlock name ih fun e held => (recalls e held).1
  | connect _ h ih => exact (Staged.stable _).connect ih h
  | disconnect _ h ih => exact Staged.disconnect ih h
  | setTeleportEntry _ h ih => exact (Staged.stable _).setTeleportEntry ih h
  | addRoot _ h ih => exact Staged.addRoot ih h
  | removeRoot id _ ih => exact Staged.removeRoot ih id
  | removeBlock id _ ih => exact Staged.removeBlock ih id
  | clear _ _ => exact .of_roots_eq rfl
  | dispose _ _ => exact .of_roots_eq rfl
  | setToDefault _ h ih => exact (Staged.stable _).setToDefault ih h
  | load d r merge _ recalls ih =>
    exact (Staged.stable _).load d merge ih fun tag kind created e held =>
      (recalls tag kind created e held).1
  | build hm ih => exact Staged.build ih hm.wellFormed.graph
  | addOptimizer o _ _ ih => exact ih
  | @configure m id f _ h ih =>
    -- the target of an input block may change
    refine Staged.of_targets ih rfl fun x b hb => ?_
    change ∃ b', (m.graph.modify id f).get? x = some b' ∧ _
    rw [get?_modify _ _ fun b => (h b).id, hb]
    split
    · exact ⟨f b, rfl, Kind.target_of_traits (h b).traits⟩
    · exact ⟨b, rfl, fun input => ⟨input, rfl⟩⟩
  | tune _ blocks _ roots _ ih => exact Staged.of_blocks ih blocks roots

end Material

/-! ## 4. Faithful materials -/

namespace Material

variable {m m' : Material} {id x : BlockId}

/-- The graph and the roots agree with what the kinds of the blocks declare. -/
structure Faithful (m : Material) : Prop extends WellFormed m where
  declared : m.graph.Declared
  rooted : m.Rooted

/-- Faithful, and what a teleport names is an entry or one of `B`. -/
structure Accounted (B : BlockId → Prop) (m : Material) : Prop extends Faithful m where
  loose : ∀ x e, m.graph.Loose x e → B e

namespace Accounted

variable {B : BlockId → Prop} {t : SocketRef} {graph : Graph}

theorem new (name : String) (options : Options) (nextId : Nat) :
    Accounted B { name, options, graph := { nextId } } :=
  ⟨⟨⟨.empty nextId, nofun⟩, .empty nextId, .of_roots_eq rfl⟩, fun _ _ h => nomatch h.1⟩

section

variable (hm : m.Accounted B)
include hm

theorem disconnect (h : m.graph.disconnect t = .ok graph) :
    ({ m with graph } : Material).Accounted B where
  graph := hm.graph.disconnect h
  modest := hm.modest
  declared := hm.declared.disconnect h
  rooted := .of_staged hm.rooted.distinct (hm.rooted.staged_all.disconnect h)
  loose x e loose := hm.loose x e (loose.of_disconnect h)

theorem removeRoot (id : BlockId) : (m.removeRoot id).Accounted B :=
  ⟨⟨⟨hm.graph, hm.modest⟩, hm.declared, hm.rooted.removeRoot id⟩, hm.loose⟩

theorem removeBlock (id : BlockId) : (m.removeBlock id).1.Accounted B where
  toWellFormed := hm.toWellFormed.removeBlock id
  declared := hm.declared.remove hm.graph.coherent id
  rooted := hm.rooted.removeBlock id
  loose x e loose := hm.loose x e loose.of_remove

theorem tune (blocks : m'.graph.blocks = m.graph.blocks)
    (counter : m.graph.nextId ≤ m'.graph.nextId) (roots : m'.roots = m.roots)
    (optimizers : m'.optimizers = m.optimizers) : m'.Accounted B := by
  have outlines : m'.graph.outlines = m.graph.outlines := by rw [Graph.outlines, blocks]; rfl
  have same : ∀ x, m'.graph.get? x = m.graph.get? x := fun x => by rw [Graph.get?, blocks]; rfl
  exact
    { graph := hm.graph.of_outlines outlines counter
      modest := optimizers ▸ hm.modest
      declared := hm.declared.of_outlines outlines
      rooted := .of_staged (roots ▸ hm.rooted.distinct)
        (hm.rooted.staged_all.of_blocks blocks roots)
      loose := fun x e loose =>
        hm.loose x e (by rwa [Loose, origin?, isEntry, same, same] at loose) }

theorem clear : m.clear.Accounted B :=
  ⟨⟨hm.toWellFormed.clear, .empty m.graph.nextId, .of_roots_eq rfl⟩, fun _ _ h => nomatch h.1⟩

theorem dispose : m.dispose.Accounted B := hm.clear.tune rfl (Nat.le_refl _) rfl rfl

theorem build : m.build.2.Accounted B where
  toWellFormed := hm.toWellFormed.build
  declared := (extends_build hm.graph).declared hm.declared
  rooted := by
    refine .of_staged ?_ (hm.rooted.staged_all.build hm.graph)
    rw [(graph_build m).1]
    exact hm.rooted.distinct
  loose x e loose := hm.loose x e ((extends_build hm.graph).loose loose)

end

theorem stable (B : BlockId → Prop) : Stable (fun g e => g.Handed e ∧ B e) (Accounted B) where
  lasting :=
    { insert := fun _ _ named => ⟨Nat.lt_succ_of_lt named.1, named.2⟩
      configure := fun _ _ _ named => named
      clear := fun named => named }
  addBlock name kind hm named :=
    have handed : ∀ e ∈ kind.teleportEntry, _ := fun e held => (named e held).1
    { toWellFormed := WellFormed.stable.addBlock name hm.toWellFormed handed
      declared := hm.declared.insert hm.graph.coherent name kind
      rooted := .of_staged hm.rooted.distinct
        ((Staged.stable _).addBlock name hm.rooted.staged_all handed)
      loose := fun x e h =>
        (h.of_insert hm.graph.fresh).elim (hm.loose x e) fun ⟨_, held⟩ => (named e held).2 }
  connect hm h :=
    { toWellFormed := WellFormed.stable.connect hm.toWellFormed h
      declared := hm.declared.connect h
      rooted := .of_staged hm.rooted.distinct ((Staged.stable _).connect hm.rooted.staged_all h)
      loose := fun x e loose => hm.loose x e (loose.of_connect h) }
  setTeleportEntry hm h :=
    { toWellFormed := WellFormed.stable.setTeleportEntry hm.toWellFormed h
      declared := hm.declared.setTeleportEntry h
      rooted := .of_staged hm.rooted.distinct
        ((Staged.stable _).setTeleportEntry hm.rooted.staged_all h)
      loose := fun x e loose => hm.loose x e (loose.of_setTeleportEntry h) }
  addRoot hm h := by
    have rooted := hm.rooted.addRoot h
    obtain ⟨b, -, -, rfl⟩ := addRoot_eq_ok_iff.mp h
    exact ⟨⟨⟨hm.graph, hm.modest⟩, hm.declared, rooted⟩, hm.loose⟩
  adjust id _ hm h :=
    { toWellFormed := WellFormed.stable.adjust id hm.toWellFormed h
      declared := hm.declared.adjust h
      rooted := .of_staged hm.rooted.distinct ((Staged.stable _).adjust id hm.rooted.staged_all h)
      loose := fun x e loose => hm.loose x e (loose.of_configure fun b => (h b).toConfigured) }
  clear hm := hm.clear
  tune hm graph roots _ optimizers _ :=
    hm.tune (congrArg Graph.blocks graph) (congrArg Graph.nextId graph).ge roots optimizers

end Accounted

/-! ## 5. Crafted materials -/

/-- The materials that the public operations make if the settings that decide the outputs and the
stages of a kind are chosen when the kind is made, and not written later. -/
inductive Crafted : Material → Prop
  | new (name : String) (options : Options) (nextId : Nat) :
      Crafted { name, options, graph := { nextId } }
  | addBlock {m : Material} (name : String) (kind : Kind) : Crafted m →
      kind.teleportEntry = none → Crafted (m.addBlock name kind)
  | connect {m : Material} {source target : SocketRef} {graph : Graph} :
      Crafted m → m.graph.connect source target = .ok graph → Crafted { m with graph }
  | disconnect {m : Material} {target : SocketRef} {graph : Graph} :
      Crafted m → m.graph.disconnect target = .ok graph → Crafted { m with graph }
  | setTeleportEntry {m : Material} {out : BlockId} {entry : Option BlockId} {graph : Graph} :
      Crafted m → m.graph.setTeleportEntry out entry = .ok graph → Crafted { m with graph }
  | addRoot {m m' : Material} {id : BlockId} : Crafted m → m.addRoot id = .ok m' → Crafted m'
  | removeRoot {m : Material} (id : BlockId) : Crafted m → Crafted (m.removeRoot id)
  | removeBlock {m : Material} (id : BlockId) : Crafted m → Crafted (m.removeBlock id).1
  | clear {m : Material} : Crafted m → Crafted m.clear
  | dispose {m : Material} : Crafted m → Crafted m.dispose
  | setToDefault {m m' : Material} {mode : Mode} :
      Crafted m → m.setToDefault mode = .ok m' → Crafted m'
  | load {m : Material} (d : Document) (r : Registry) (merge : Bool) : Crafted m →
      (∀ tag kind, r.create tag = .ok kind → kind.teleportEntry = none) →
      Crafted (m.load d r merge).2
  | build {m : Material} : Crafted m → Crafted m.build.2
  | addOptimizer {m : Material} (o : Optimizer) : Crafted m → o.Modest →
      Crafted { m with optimizers := m.optimizers ++ [o] }
  /-- The name, the comments and the other settings of a block are written. -/
  | adjust {m : Material} (id : BlockId) (f : Block → Block) : Crafted m →
      (∀ b : Block, b.Adjusted (f b)) → Crafted { m with graph := m.graph.modify id f }
  /-- Whatever else is written, by hand or by a check for readiness. -/
  | tune {m m' : Material} : Crafted m → m'.graph.blocks = m.graph.blocks →
      m.graph.nextId ≤ m'.graph.nextId → m'.roots = m.roots → m'.optimizers = m.optimizers →
      Crafted m'

theorem Crafted.connectAll (hm : m.Crafted) (pairs : List (SocketRef × SocketRef)) (g : Graph)
    (h : m.graph.connectAll pairs = .ok g) : Crafted { m with graph := g } :=
  connectAll_induction (P := fun graph => Crafted { m with graph })
    (fun hm h => hm.connect h) hm h

theorem Crafted.reachable (hm : m.Crafted) : m.Reachable := by
  induction hm with
  | new name options nextId => exact .new name options nextId
  | addBlock name kind _ free ih => exact .addBlock name kind ih (forall_entry_of_free free)
  | connect _ h ih => exact .connect ih h
  | disconnect _ h ih => exact .disconnect ih h
  | setTeleportEntry _ h ih => exact .setTeleportEntry ih h
  | addRoot _ h ih => exact .addRoot ih h
  | removeRoot id _ ih => exact .removeRoot id ih
  | removeBlock id _ ih => exact .removeBlock id ih
  | clear _ ih => exact .clear ih
  | dispose _ ih => exact .dispose ih
  | setToDefault _ h ih => exact .setToDefault ih h
  | load d r merge _ free ih =>
    exact .load d r merge ih fun tag kind created => forall_entry_of_free (free tag kind created)
  | build _ ih => exact .build ih
  | addOptimizer o _ modest ih => exact .addOptimizer o ih modest
  | adjust id f _ h ih => exact .configure id f ih fun b => (h b).toConfigured
  | tune _ blocks counter roots optimizers ih => exact .tune ih blocks counter roots optimizers

/-- Faithful, and no teleport is without its entry. -/
abbrev Intact (m : Material) : Prop := m.Accounted fun _ => False

theorem Intact.isEntry (hm : m.Intact) {e : BlockId} (origin : m.graph.origin? x = some e) :
    m.graph.isEntry e = true := by
  by_contra away
  exact hm.loose x e ⟨origin, by simpa using away⟩

theorem Crafted.intact (hm : m.Crafted) : m.Intact := by
  induction hm with
  | new name options nextId => exact .new name options nextId
  | addBlock name kind _ free ih =>
    exact (Accounted.stable _).addBlock name ih (forall_entry_of_free free)
  | connect _ h ih => exact (Accounted.stable _).connect ih h
  | disconnect _ h ih => exact ih.disconnect h
  | setTeleportEntry _ h ih => exact (Accounted.stable _).setTeleportEntry ih h
  | addRoot _ h ih => exact (Accounted.stable _).addRoot ih h
  | removeRoot id _ ih => exact ih.removeRoot id
  | removeBlock id _ ih => exact ih.removeBlock id
  | clear _ ih => exact ih.clear
  | dispose _ ih => exact ih.dispose
  | setToDefault _ h ih => exact (Accounted.stable _).setToDefault ih h
  | load d r merge _ free ih =>
    exact (Accounted.stable _).load d merge ih fun tag kind created =>
      forall_entry_of_free (free tag kind created)
  | build _ ih => exact ih.build
  | addOptimizer o h modest ih =>
    exact ⟨⟨(Reachable.addOptimizer o h.reachable modest).wellFormed, ih.declared,
      .of_staged ih.rooted.distinct (ih.rooted.staged_all.of_blocks rfl rfl)⟩, ih.loose⟩
  | adjust id f _ h ih => exact (Accounted.stable _).adjust id ih h
  | tune _ blocks counter roots optimizers ih => exact ih.tune blocks counter roots optimizers

end Material

end ShaderGraph
