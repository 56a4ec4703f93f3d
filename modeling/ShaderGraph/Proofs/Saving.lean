import ShaderGraph.Document.Save
import ShaderGraph.Proofs.Crafted
import ShaderGraph.Proofs.Loading

/-!
# What a saved document says

A saved document lists every block of the graph once (`Material.saved_perm`), under the number of
its identity. Its links are the links of the graph, by the names of the sockets. Since the graph has
no cycles, a chain of links leads from each block back to one without links, so that a load reaches
every block (`Material.WellFormed.grounded`).
-/

namespace ShaderGraph

open List ShaderGraph.Graph

variable {α : Type}

/-! ## 1. Sockets by name -/

theorem findIdx?_eq_some_iff_of_nodup {name : α → String} {items : List α} {wanted : String}
    {i : Nat} (distinct : (items.map name).Nodup) :
    items.findIdx? (fun a => name a == wanted) = some i ↔
      ∃ a, items[i]? = some a ∧ name a = wanted := by
  rw [List.findIdx?_eq_some_iff_getElem]
  constructor
  · rintro ⟨h, found, -⟩
    exact ⟨items[i], List.getElem?_eq_getElem h, by simpa using found⟩
  · rintro ⟨a, ha, rfl⟩
    obtain ⟨h, rfl⟩ := List.getElem?_eq_some_iff.mp ha
    refine ⟨h, by simp, fun j hj same => ?_⟩
    have inside : j < (items.map name).length := by simp; omega
    have names : (items.map name)[j]? = (items.map name)[i]? := by
      simpa [List.getElem?_eq_getElem h, List.getElem?_eq_getElem (Nat.lt_trans hj h)] using same
    exact absurd ((List.getElem?_inj inside distinct).mp names) (Nat.ne_of_lt hj)

namespace Kind

theorem nodup_inputs (k : Kind) : (k.inputs.map SocketSpec.name).Nodup := by
  cases k <;> simp [inputs, Transform.inputs, VertexOutput.inputs, FragmentOutput.inputs,
    MathOp.inputs, Clamp.inputs, Lerp.inputs, VectorMerger.inputs, TextureBlock.inputs,
    MorphBlock.inputs, BonesBlock.inputs, FogBlock.inputs, TeleportIn.inputs]

theorem nodup_outputs (k : Kind) : (k.outputs.map SocketSpec.name).Nodup := by
  cases k <;> simp [outputs, InputBlock.outputs, Transform.outputs, followingOutput,
    VectorMerger.outputs, TextureBlock.outputs, MorphBlock.outputs, BonesBlock.outputs,
    FogBlock.outputs, TeleportOut.outputs]

end Kind

namespace Block.Fitted

variable {b : Block} {name : String} {i : Nat} (hb : b.Fitted)
include hb

theorem nodup_inputs : (b.inputs.map fun p => p.spec.name).Nodup := by
  have names := b.kind.nodup_inputs
  rw [← hb.inputs, List.map_map] at names
  exact names

theorem nodup_outputs : (b.outputs.map fun p => p.spec.name).Nodup := by
  rw [hb.outputs]
  exact b.kind.nodup_outputs

theorem inputIndex?_eq_some_iff :
    b.inputIndex? name = some i ↔ ∃ p, b.inputs[i]? = some p ∧ p.spec.name = name :=
  findIdx?_eq_some_iff_of_nodup hb.nodup_inputs

theorem outputIndex?_eq_some_iff :
    b.outputIndex? name = some i ↔ ∃ p, b.outputs[i]? = some p ∧ p.spec.name = name :=
  findIdx?_eq_some_iff_of_nodup hb.nodup_outputs

end Block.Fitted

/-! ## 2. Links -/

namespace Graph

variable {g : Graph} {b : Block} {l : LinkEntry} {x : BlockId}

theorem id_blockEntry (hb : g.get? x = some b) : (g.blockEntry b).id = x.index :=
  congrArg BlockId.index (id_of_get? hb)

theorem linkEntry?_eq_some_iff {p : InputSocket} :
    g.linkEntry? p = some l ↔ ∃ s o, p.link = some s ∧ g.output? s = some o ∧
      l = ⟨p.spec.name, s.block.index, o.spec.name⟩ := by
  unfold linkEntry?
  simp only [Option.bind_eq_bind, Option.bind_eq_some_iff, Option.pure_def, Option.some.injEq,
    output?_eq_some_iff]
  constructor
  · rintro ⟨s, hs, c, hc, o, ho, rfl⟩
    exact ⟨s, o, hs, ⟨c, hc, ho⟩, rfl⟩
  · rintro ⟨s, o, hs, ⟨c, hc, ho⟩, rfl⟩
    exact ⟨s, hs, c, hc, o, ho, rfl⟩

theorem mem_links_iff (hb : g.get? x = some b) :
    l ∈ (g.blockEntry b).links ↔ ∃ j s o p, g.source? ⟨x, j⟩ = some s ∧ b.inputs[j]? = some p ∧
      g.output? s = some o ∧ l = ⟨p.spec.name, s.block.index, o.spec.name⟩ := by
  simp only [blockEntry, mem_filterMap, linkEntry?_eq_some_iff]
  constructor
  · rintro ⟨p, hp, s, o, hs, ho, rfl⟩
    obtain ⟨j, hj⟩ := mem_iff_getElem?.mp hp
    refine ⟨j, s, o, p, ?_, hj, ho, rfl⟩
    exact source?_eq_some_iff.mpr ⟨p, input?_eq_some_iff.mpr ⟨b, hb, hj⟩, hs⟩
  · rintro ⟨j, s, o, p, hsource, hj, ho, rfl⟩
    obtain ⟨p', hp', hs⟩ := source?_eq_some_iff.mp hsource
    obtain ⟨b', hb', hj'⟩ := input?_eq_some_iff.mp hp'
    cases hb.symm.trans hb'
    cases hj.symm.trans hj'
    exact ⟨p, mem_of_getElem? hj, s, o, hs, ho, rfl⟩

theorem nodup_links (hb : b.Fitted) : ((g.blockEntry b).links.map LinkEntry.input).Nodup := by
  have sub : ∀ inputs : List InputSocket, ((inputs.filterMap g.linkEntry?).map LinkEntry.input)
      |>.Sublist (inputs.map fun p => p.spec.name) := by
    intro inputs
    induction inputs with
    | nil => exact .slnil
    | cons p rest ih =>
      cases hl : g.linkEntry? p with
      | none =>
        rw [filterMap_cons_none hl]
        exact ih.cons _
      | some l =>
        obtain ⟨s, o, -, -, rfl⟩ := linkEntry?_eq_some_iff.mp hl
        rw [filterMap_cons_some hl]
        exact ih.cons_cons _
  exact hb.nodup_inputs.sublist (sub b.inputs)

end Graph

/-! ## 3. The blocks of the document -/

theorem Search.nodup_preorder [DecidableEq α] (all : List α) (next : α → List α)
    {seen todo : List α} (distinct : seen.Nodup) : (preorder all next seen todo).Nodup := by
  fun_induction preorder all next seen todo with
  | case1 seen => exact nodup_reverse.mpr distinct
  | case2 seen n rest here _ ih => exact ih (nodup_cons.mpr ⟨here.2, distinct⟩)
  | case3 seen n rest old ih => exact ih distinct

theorem nodup_foldl_pushNew [DecidableEq α] {more start : List α} (distinct : start.Nodup) :
    (more.foldl (fun ids id => pushNew id ids) start).Nodup := by
  induction more generalizing start with
  | nil => exact distinct
  | cons x rest ih => exact ih (nodup_pushNew distinct)

theorem Roots.nodup_all (r : Roots) : r.all.Nodup := nodup_foldl_pushNew nodup_nil

theorem BlockId.index_inj {x y : BlockId} : x.index = y.index ↔ x = y :=
  ⟨fun h => congrArg BlockId.mk h, congrArg BlockId.index⟩

namespace Material

variable {m : Material} {e : BlockEntry} {x : BlockId} {n : Nat} {b : Block}

/-- The blocks of the graph, in the order in which they are saved. -/
def savedBlocks (m : Material) : List Block := m.savedOrder.filterMap m.graph.get?

theorem mem_savedBlocks_iff (hd : m.graph.ids.Nodup) : b ∈ m.savedBlocks ↔ b ∈ m.graph.blocks := by
  rw [savedBlocks, mem_filterMap]
  constructor
  · rintro ⟨x, -, hb⟩
    exact mem_of_get? hb
  · intro hb
    refine ⟨b.id, mem_foldl_pushNew.mpr (.inr (mem_append_right _ ?_)), ?_⟩
    · exact mem_map_of_mem hb
    · exact get?_of_mem hd hb

theorem nodup_savedOrder (m : Material) : m.savedOrder.Nodup :=
  nodup_foldl_pushNew (Search.nodup_preorder _ _ nodup_nil)

theorem saved_perm (hd : m.graph.ids.Nodup) : m.savedBlocks.Perm m.graph.blocks := by
  refine (perm_ext_iff_of_nodup ?_ (List.Nodup.of_map _ hd)).mpr fun b =>
    mem_savedBlocks_iff hd
  refine m.nodup_savedOrder.filterMap fun x y b hx hy => ?_
  rw [← id_of_get? hx, ← id_of_get? hy]

theorem mem_blocks_iff (hd : m.graph.ids.Nodup) :
    e ∈ m.toDocument.blocks ↔ ∃ x b, m.graph.get? x = some b ∧ e = m.graph.blockEntry b := by
  change e ∈ m.savedBlocks.map m.graph.blockEntry ↔ _
  simp only [List.mem_map, mem_savedBlocks_iff hd]
  constructor
  · rintro ⟨b, hb, rfl⟩
    exact ⟨b.id, b, get?_of_mem hd hb, rfl⟩
  · rintro ⟨x, b, hb, rfl⟩
    exact ⟨b, mem_of_get? hb, rfl⟩

theorem WellFormed.blockEntry_mem (hm : m.WellFormed) (hb : m.graph.get? x = some b) :
    m.graph.blockEntry b ∈ m.toDocument.blocks :=
  (mem_blocks_iff hm.graph.coherent.distinct).mpr ⟨x, b, hb, rfl⟩

theorem ids_toDocument (m : Material) :
    m.toDocument.ids = m.savedBlocks.map fun b => b.id.index := by
  rw [Document.ids, toDocument, List.map_map]
  rfl

theorem mem_ids_iff (hd : m.graph.ids.Nodup) :
    n ∈ m.toDocument.ids ↔ ∃ x ∈ m.graph.ids, n = x.index := by
  rw [ids_toDocument, List.mem_map]
  simp only [mem_savedBlocks_iff hd]
  constructor
  · rintro ⟨b, hb, rfl⟩
    exact ⟨b.id, List.mem_map_of_mem hb, rfl⟩
  · rintro ⟨x, hx, rfl⟩
    obtain ⟨b, hb, rfl⟩ := List.mem_map.mp hx
    exact ⟨b, hb, rfl⟩

theorem mem_roots_all_iff {r : Roots} : x ∈ r.all ↔ ∃ stage, x ∈ r.of stage := by
  rw [Roots.all, mem_foldl_pushNew, mem_append]
  constructor
  · rintro (h | h | h)
    · cases h
    · exact ⟨.vertex, h⟩
    · exact ⟨.fragment, h⟩
  · rintro ⟨stage, h⟩
    cases stage
    · exact .inr (.inl h)
    · exact .inr (.inr h)

theorem Faithful.referring (hm : m.Faithful) : m.toDocument.Referring where
  distinct := by
    have hd := hm.graph.coherent.distinct
    rw [ids_toDocument, ((saved_perm hd).map _).nodup_iff]
    have ids := hd.map (f := BlockId.index) fun x y => BlockId.index_inj.mp
    rw [Graph.ids, List.map_map] at ids
    exact ids
  targets e he l hl := by
    have hd := hm.graph.coherent.distinct
    obtain ⟨x, b, hb, rfl⟩ := (mem_blocks_iff hd).mp he
    obtain ⟨j, s, o, p, -, -, ho, rfl⟩ := (mem_links_iff hb).mp hl
    obtain ⟨c, hc, -⟩ := output?_eq_some_iff.mp ho
    exact (mem_ids_iff hd).mpr ⟨s.block, Graph.mem_ids_iff.mpr ⟨c, hc⟩, rfl⟩
  outputs n hn := by
    obtain ⟨x, hx, rfl⟩ := List.mem_map.mp hn
    obtain ⟨stage, hx⟩ := mem_roots_all_iff.mp hx
    obtain ⟨b, hb, -⟩ := hm.rooted.staged x stage hx
    exact (mem_ids_iff hm.graph.coherent.distinct).mpr ⟨x, Graph.mem_ids_iff.mpr ⟨b, hb⟩, rfl⟩

/-- A chain of links leads from every block back to one without links. -/
theorem WellFormed.grounded (hm : m.WellFormed) (hx : x ∈ m.graph.ids) :
    m.toDocument.Grounded x.index := by
  -- by how many blocks are behind a block
  induction hn : m.graph.depth x using Nat.strong_induction_on generalizing x with
  | _ n ih =>
    subst hn
    obtain ⟨b, hb⟩ := Graph.mem_ids_iff.mp hx
    have he := hm.blockEntry_mem hb
    obtain rfl := id_of_get? hb
    cases hl : (m.graph.blockEntry b).links with
    | nil => exact Document.Grounded.leaf he hl
    | cons l rest =>
      have hmem : l ∈ (m.graph.blockEntry b).links := by rw [hl]; exact List.mem_cons_self
      obtain ⟨j, s, o, p, hsource, -, -, hlink⟩ := (mem_links_iff hb).mp hmem
      have up := upstream_of_source? hsource
      refine Document.Grounded.fed he hmem ?_
      rw [hlink]
      exact ih _ (depth_lt hm.graph.coherent hm.graph.acyclic up)
        (hm.graph.coherent.mem_ids_of_upstream up) rfl

end Material

end ShaderGraph
