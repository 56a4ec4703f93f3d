import ShaderGraph.Proofs.Saving

/-!
# Graphs that are traced

A graph can be made again block by block and link by link, from a document or by other means.
`Graph.Traces` is what holds at every moment: each block has an image with the same sockets, and the
links and teleports that were made so far are links and teleports of the graph. Sockets are then
found under their names, types fit as they did when the links were made, and a path in the trace is
a path in the graph, so that no link closes a cycle (`Graph.Traces.connectNamed_eq_ok`).

Roots can be added to a trace in their order (`Material.Rooted.addRoot_image`).
-/

namespace ShaderGraph

open Relation List Option

/-! ## 1. Graphs -/

/-- The blocks of `n` are images of those of `g`, with some of the links and teleports. -/
structure Graph.Traces (g : Graph) (ids : IdMap) (n : Graph) : Prop where
  inj : ∀ {a a' y}, ids.lookup a = some y → ids.lookup a' = some y → a = a'
  blocks : ∀ x b, g.get? x = some b → ∃ y c, ids.lookup x.index = some y ∧ n.get? y = some c ∧
    c.inputs.map InputSocket.spec = b.inputs.map InputSocket.spec ∧
    c.outputs.map OutputSocket.spec = b.outputs.map OutputSocket.spec
  links : ∀ r s, n.source? r = some s → ∃ x t, ids.lookup x.index = some r.block ∧
    g.source? ⟨x, r.index⟩ = some t ∧ ids.lookup t.block.index = some s.block ∧ s.index = t.index
  entries : ∀ y z, n.origin? y = some z → z ∈ n.ids → ∃ x e, ids.lookup x.index = some y ∧
    g.Upstream x e ∧ ids.lookup e.index = some z

namespace Graph.Traces

variable {g n : Graph} {ids : IdMap} {x y z : BlockId} {b : Block} {t : SocketRef} {j : Nat}
  (h : g.Traces ids n) {o : OutputSocket} {p : InputSocket}
include h

theorem eq_of_lookup (hx : ids.lookup x.index = some z) (hy : ids.lookup y.index = some z) :
    x = y :=
  BlockId.index_inj.mp (h.inj hx hy)

theorem block (hb : g.get? x = some b) (hy : ids.lookup x.index = some y) :
    ∃ c, n.get? y = some c ∧ c.inputs.map InputSocket.spec = b.inputs.map InputSocket.spec ∧
      c.outputs.map OutputSocket.spec = b.outputs.map OutputSocket.spec := by
  obtain ⟨y', c, hy', hc, specs⟩ := h.blocks x b hb
  cases hy.symm.trans hy'
  exact ⟨c, hc, specs⟩

/-- What is upstream in the trace is upstream in the graph. -/
theorem upstream_back (up : n.Upstream y z) : ∃ u v, ids.lookup u.index = some y ∧
    ids.lookup v.index = some z ∧ g.Upstream u v := by
  rcases up with ⟨i, s, hs, rfl⟩ | ⟨origin, there⟩
  · obtain ⟨x, t, hx, ht, hz, -⟩ := h.links _ _ hs
    exact ⟨x, t.block, hx, hz, upstream_of_source? ht⟩
  · obtain ⟨x, e, hx, up, hz⟩ := h.entries y z origin there
    exact ⟨x, e, hx, hz, up⟩

theorem path_back (path : ReflTransGen n.Upstream y z) (hy : ids.lookup x.index = some y) :
    ∃ v, ids.lookup v.index = some z ∧ ReflTransGen g.Upstream x v := by
  induction path with
  | refl => exact ⟨x, hy, .refl⟩
  | tail _ up ih =>
    obtain ⟨u, hu, path⟩ := ih
    -- the two preimages of the block in the middle are one
    obtain ⟨u', v, hu', hv, up⟩ := h.upstream_back up
    obtain rfl := h.eq_of_lookup hu hu'
    exact ⟨v, hv, path.tail up⟩

theorem reaches_eq_false (acyclic : g.Acyclic) {e : BlockId} (up : g.Upstream x e)
    (hx : ids.lookup x.index = some y) (hz : ids.lookup e.index = some z) :
    n.reaches z y = false := by
  rw [Bool.eq_false_iff]
  intro reaches
  obtain ⟨b, hb⟩ := mem_ids_iff.mp up.mem_ids
  obtain ⟨c, hc, -⟩ := h.block hb hx
  obtain ⟨v, hv, path⟩ :=
    h.path_back ((reaches_iff (mem_ids_iff.mpr ⟨c, hc⟩)).mp reaches) hz
  obtain rfl := h.eq_of_lookup hx hv
  exact acyclic x (.head' up path)

theorem output? (ho : g.output? t = some o) (hz : ids.lookup t.block.index = some z) :
    ∃ o', n.output? ⟨z, t.index⟩ = some o' ∧ o'.spec = o.spec := by
  obtain ⟨a, ha, hi⟩ := output?_eq_some_iff.mp ho
  obtain ⟨c, hc, -, outputs⟩ := h.block ha hz
  have specs := congrArg (fun specs => specs[t.index]?) outputs
  simp only [getElem?_map, hi, map_some] at specs
  obtain ⟨o', ho', same⟩ := map_eq_some_iff.mp specs
  exact ⟨o', output?_eq_some_iff.mpr ⟨c, hc, ho'⟩, same⟩

theorem input? (hp : g.input? ⟨x, j⟩ = some p) (hx : ids.lookup x.index = some y) :
    ∃ p', n.input? ⟨y, j⟩ = some p' ∧ p'.spec = p.spec := by
  obtain ⟨a, ha, hi⟩ := input?_eq_some_iff.mp hp
  obtain ⟨c, hc, inputs, -⟩ := h.block ha hx
  have specs := congrArg (fun specs => specs[j]?) inputs
  simp only [getElem?_map, hi, map_some] at specs
  obtain ⟨p', hp', same⟩ := map_eq_some_iff.mp specs
  exact ⟨p', input?_eq_some_iff.mpr ⟨c, hc, hp'⟩, same⟩

theorem placed (fitted : ∀ x b, g.get? x = some b → b.Fitted) (hp : g.input? ⟨x, j⟩ = some p)
    (ho : g.output? t = some o) (hx : ids.lookup x.index = some y)
    (hz : ids.lookup t.block.index = some z) : n.Placed z o.spec.name y p.spec.name t.index j := by
  obtain ⟨a, ha, hi⟩ := output?_eq_some_iff.mp ho
  obtain ⟨b, hb, hj⟩ := input?_eq_some_iff.mp hp
  obtain ⟨c, hc, inputs, -⟩ := h.block hb hx
  obtain ⟨d, hd, -, outputs⟩ := h.block ha hz
  refine ⟨⟨d, hd, ?_⟩, c, hc, ?_⟩
  · rw [Block.outputIndex?_of_specs outputs]
    exact (fitted _ _ ha).outputIndex?_eq_some_iff.mpr ⟨o, hi, rfl⟩
  · rw [Block.inputIndex?_of_specs inputs]
    exact (fitted _ _ hb).inputIndex?_eq_some_iff.mpr ⟨p, hj, rfl⟩

theorem connectNamed_eq_ok (proper : g.Proper) (declared : g.Declared)
    (ht : g.source? ⟨x, j⟩ = some t) (hp : g.input? ⟨x, j⟩ = some p) (ho : g.output? t = some o)
    (hx : ids.lookup x.index = some y) (hz : ids.lookup t.block.index = some z)
    (free : n.source? ⟨y, j⟩ = none) :
    n.connectNamed z o.spec.name y p.spec.name = .ok (n.link ⟨z, t.index⟩ ⟨y, j⟩) := by
  have up := upstream_of_source? ht
  obtain ⟨o', ho', hospec⟩ := h.output? ho hz
  obtain ⟨p', hp', hpspec⟩ := h.input? hp hx
  have linkable : n.Linkable ⟨z, t.index⟩ ⟨y, j⟩ o' p' := by
    refine ⟨ho', hp', ?_, ?_, ?_⟩
    · rw [source?, hp'] at free
      exact free
    · intro (same : z = y)
      obtain rfl := h.eq_of_lookup hx (same ▸ hz)
      exact proper.acyclic _ (.single up)
    · rw [Fits, hospec, hpspec]
      refine declared.fits _ _ _ _ ht ?_ ?_
      · rw [outputSpec?, ho]
        rfl
      · rw [inputSpec?, hp]
        rfl
  exact connectNamed_eq_ok_iff.mpr ⟨t.index, j, h.placed proper.fitted hp ho hx hz,
    connect_eq_ok_iff.mpr
      ⟨⟨o', p', linkable⟩, h.reaches_eq_false proper.acyclic up hx hz, rfl⟩⟩

/-- A link of the graph is made in the trace. -/
theorem links_link (hp : n.input? ⟨y, j⟩ = some p) (ht : g.source? ⟨x, j⟩ = some t)
    (hx : ids.lookup x.index = some y) (hz : ids.lookup t.block.index = some z) (r s : SocketRef)
    (hs : (n.link ⟨z, t.index⟩ ⟨y, j⟩).source? r = some s) :
    ∃ x t, ids.lookup x.index = some r.block ∧ g.source? ⟨x, r.index⟩ = some t ∧
      ids.lookup t.block.index = some s.block ∧ s.index = t.index := by
  rw [source?_link hp] at hs
  split at hs
  · rename_i here
    cases hs
    subst here
    exact ⟨x, t, hx, ht, hz, rfl⟩
  · exact h.links r s hs

end Graph.Traces

/-! ## 2. Roots -/

section PushNew

variable {α : Type} [DecidableEq α] {more start : List α}

theorem foldl_pushNew_of_nodup (distinct : (start ++ more).Nodup) :
    more.foldl (fun ids id => pushNew id ids) start = start ++ more := by
  induction more generalizing start with
  | nil => exact (append_nil _).symm
  | cons x rest ih =>
    have fresh : x ∉ start := fun hx =>
      (nodup_append.mp distinct).2.2 x hx x mem_cons_self rfl
    have push : pushNew x start = start ++ [x] := if_neg fresh
    rw [foldl_cons, push, ih, append_assoc]
    · rfl
    · rwa [append_assoc]

theorem filter_foldl_pushNew {keep : List α} (h : keep ⊆ start) :
    (more.foldl (fun ids id => pushNew id ids) start).filter (· ∈ keep) =
      start.filter (· ∈ keep) := by
  induction more generalizing start with
  | nil => rfl
  | cons x rest ih =>
    rw [foldl_cons, ih (List.Subset.trans h (subset_pushNew x start)), pushNew]
    split
    · rfl
    · rename_i fresh
      have other : x ∉ keep := fun hx => fresh (h hx)
      simp [other]

end PushNew

theorem Roots.filter_all_vertex {r : Roots} (distinct : r.vertex.Nodup) :
    r.all.filter (· ∈ r.vertex) = r.vertex := by
  have vertex : r.vertex.foldl (fun ids id => pushNew id ids) [] = [] ++ r.vertex :=
    foldl_pushNew_of_nodup distinct
  rw [all, foldl_append, vertex, nil_append, filter_foldl_pushNew (List.Subset.refl _)]
  simp

namespace Material

variable {m n : Material} {ids : IdMap} {x y : BlockId} {b c : Block}

/-- The images of some roots of the material, in their order, are the roots of each stage. -/
def RootImages (m : Material) (ids : IdMap) (done : List BlockId) (n : Material) : Prop :=
  ∀ stage, (n.roots.of stage).map some =
    (done.filter (· ∈ m.roots.of stage)).map fun x => ids.lookup x.index

/-- The next root can be added. -/
theorem Rooted.addRoot_image (rooted : m.Rooted)
    (inj : ∀ {a a' y}, ids.lookup a = some y → ids.lookup a' = some y → a = a')
    {done todo : List BlockId} (all : m.roots.all = done ++ x :: todo)
    (hb : m.graph.get? x = some b) (hy : ids.lookup x.index = some y)
    (hc : n.graph.get? y = some c) (target : c.target = b.target)
    (images : m.RootImages ids done n) :
    n.addRoot y = .ok { n with roots := n.roots.add c.target y } ∧
      m.RootImages ids (done ++ [x]) { n with roots := n.roots.add c.target y } := by
  have listed : x ∈ m.roots.all := by
    rw [all]
    exact List.mem_append_right _ List.mem_cons_self
  obtain ⟨stage, hx⟩ := mem_roots_all_iff.mp listed
  obtain ⟨b', hb', staged⟩ := rooted.staged x stage hx
  cases hb.symm.trans hb'
  refine ⟨addRoot_eq_ok_iff.mpr ⟨c, hc, ?_, rfl⟩, fun stage => ?_⟩
  · have included := (staged stage).mp hx
    rw [target]
    cases stage <;> simp [included]
  · rw [Roots.of_add, target, List.filter_append, List.map_append, ← images]
    split
    · rename_i included
      have fresh : y ∉ n.roots.of stage := by
        intro hy'
        have image := List.mem_map_of_mem (f := some) hy'
        rw [images, List.mem_map] at image
        obtain ⟨x', hx', same⟩ := image
        obtain rfl := BlockId.index_inj.mp (inj hy same)
        have distinct := m.roots.nodup_all
        rw [all, List.nodup_append] at distinct
        exact distinct.2.2 x (List.mem_filter.mp hx').1 x List.mem_cons_self rfl
      have root : x ∈ m.roots.of stage := (staged stage).mpr included
      simp [pushNew, fresh, root, hy]
    · rename_i excluded
      have root : x ∉ m.roots.of stage := fun hx => excluded ((staged stage).mp hx)
      simp [root]

theorem RootImages.vertex (images : m.RootImages ids m.roots.all n) (rooted : m.Rooted) :
    n.roots.vertex.map some = m.roots.vertex.map fun x => ids.lookup x.index := by
  have vertex := images .vertex
  rwa [Roots.of, Roots.of, Roots.filter_all_vertex (rooted.distinct .vertex)] at vertex

theorem RootImages.fragment (images : m.RootImages ids m.roots.all n) (y : BlockId) :
    y ∈ n.roots.fragment ↔ ∃ x ∈ m.roots.fragment, ids.lookup x.index = some y := by
  change y ∈ n.roots.of .fragment ↔ ∃ x ∈ m.roots.of .fragment, ids.lookup x.index = some y
  rw [← List.mem_map_of_injective (Option.some_injective _), images, List.mem_map]
  constructor
  · rintro ⟨x, hx, hy⟩
    exact ⟨x, by simpa using (List.mem_filter.mp hx).2, hy⟩
  · rintro ⟨x, hx, hy⟩
    exact ⟨x, List.mem_filter.mpr ⟨mem_roots_all_iff.mpr ⟨.fragment, hx⟩, by simpa using hx⟩, hy⟩

end Material

end ShaderGraph
