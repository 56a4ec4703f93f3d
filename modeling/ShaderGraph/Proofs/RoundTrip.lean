import ShaderGraph.Proofs.Settings
import ShaderGraph.Proofs.Tracing

/-!
# Saving and loading

Loading what was saved gives the material again (`Material.load_toDocument`), up to the identities
of the blocks: `Material.Isomorphic` says what stays the same.

Each stage of the load goes through because the graph that it builds is a copy of a graph without
faults. `Graph.Copying` is the invariant: the blocks are copies of those of the graph, and the links
made so far are links of the graph. Such a copy is a trace, in which links can be made
(`Graph.Traces`). Links are restored to blocks that have none yet, one input after the other, so
that no input is taken.
-/

namespace ShaderGraph

variable {g : Graph}

open Relation List ShaderGraph.Graph Option Kind Material Load

/-! ## 1. Kinds after a load -/

namespace Kind

variable {k k' : Kind} {ids : IdMap}

/-- A kind with its teleport entry moved to another graph. -/
def moved (ids : IdMap) (k : Kind) : Kind :=
  k.setTeleportEntry (k.teleportEntry.bind fun e => ids.lookup e.index)

/-- A kind that was copied: it declares the same, and its settings differ only in the entry. -/
structure Copies (ids : IdMap) (k k' : Kind) : Prop where
  className : k'.className = k.className
  inputs : k'.inputs = k.inputs
  outputs : k'.outputs = k.outputs
  target : k'.target = k.target
  teleportIn : k'.isTeleportIn = k.isTeleportIn
  entry : k'.teleportEntry = k.teleportEntry.bind fun e => ids.lookup e.index
  fields : k'.fields = (k.moved ids).fields

theorem Restores.resolved (h : k.Restores k') (ids : IdMap) : k.Copies ids (k'.resolved ids) := by
  obtain ⟨className, inputs, outputs, target, teleportIn, entry, pending, fields⟩ := h
  cases k' with
  | teleportOut t =>
    obtain ⟨_, waiting⟩ := t
    obtain rfl : _ = none := entry
    cases he : k.teleportEntry with
    | none =>
      rw [he] at pending
      obtain rfl : waiting = none := pending
      refine ⟨className, inputs, outputs, target, teleportIn, by rw [he]; rfl, ?_⟩
      rw [moved, he]
      exact fields none
    | some e =>
      rw [he] at pending
      obtain rfl : waiting = some e.index := pending
      refine ⟨className, inputs, outputs, target, teleportIn, by rw [he]; rfl, ?_⟩
      rw [moved, he]
      exact fields (ids.lookup e.index)
  | _ =>
    have none : k.teleportEntry = none := map_eq_none_iff.mp pending.symm
    refine ⟨className, inputs, outputs, target, teleportIn, by rw [none]; rfl, ?_⟩
    rw [moved, none]
    exact fields Option.none

end Kind

namespace Load

variable {α : Type} {m m' : Material} {r : Registry} {ids : IdMap}

/-! ## 2. Loads that go through -/

theorem exists_gives_forM {P : List α → Material → Prop} (f : α → Load PUnit) (items : List α)
    (step : ∀ a rest m, P (a :: rest) m → ∃ m', Gives (f a) m ⟨⟩ m' ∧ P rest m')
    (hm : P items m) : ∃ m', Gives (items.forM f) m ⟨⟩ m' ∧ P [] m' := by
  induction items generalizing m with
  | nil => exact ⟨m, gives_pure_iff.mpr ⟨rfl, rfl⟩, hm⟩
  | cons a rest ih =>
    obtain ⟨m₁, h₁, hm₁⟩ := step a rest m hm
    obtain ⟨m', h, hm'⟩ := ih hm₁
    exact ⟨m', gives_forM_cons_iff.mpr ⟨m₁, h₁, h⟩, hm'⟩

theorem exists_gives_addBlocks {entries : List BlockEntry}
    (h : ∀ b ∈ entries, ∃ kind, kindOf r b = .ok kind) :
    ∃ ids m', Gives (entries.mapM (addBlock r)) m ids m' := by
  induction entries generalizing m with
  | nil => exact ⟨[], m, gives_pure_iff.mpr ⟨rfl, rfl⟩⟩
  | cons b rest ih =>
    rw [forall_mem_cons] at h
    obtain ⟨kind, hkind⟩ := h.1
    obtain ⟨m₁, first⟩ : ∃ m₁, Gives (addBlock r b) m (b.id, m.graph.freshId) m₁ :=
      ⟨_, gives_addBlock_iff.mpr ⟨kind, hkind, rfl, rfl⟩⟩
    obtain ⟨ids, m', later⟩ := ih h.2 (m := m₁)
    refine ⟨(b.id, m.graph.freshId) :: ids, m', ?_⟩
    rw [mapM_cons]
    exact gives_bind_iff.mpr
      ⟨_, m₁, first, gives_bind_iff.mpr ⟨ids, m', later, gives_pure_iff.mpr ⟨rfl, rfl⟩⟩⟩

end Load

/-! ## 3. Graphs that are being copied -/

/-- A copy of a block, its links aside. -/
structure Block.Copies (ids : IdMap) (b c : Block) : Prop where
  name : c.name = b.name
  comments : c.comments = b.comments
  kind : b.kind.Copies ids c.kind
  inputs : c.inputs.map InputSocket.spec = b.inputs.map InputSocket.spec
  outputs : c.outputs.map OutputSocket.spec = b.outputs.map OutputSocket.spec

theorem Block.Copies.of_face {ids : IdMap} {b c c' : Block} (h : b.Copies ids c)
    (same : c'.face = c.face) : b.Copies ids c' where
  name := (congrArg Face.name same).trans h.name
  comments := (congrArg Face.comments same).trans h.comments
  kind := by
    have kind : c'.kind = c.kind := congrArg Face.kind same
    rw [kind]
    exact h.kind
  inputs := (congrArg Face.inputs same).trans h.inputs
  outputs := (congrArg Face.outputs same).trans h.outputs

/-- The blocks of `n` are copies of those of `g`, with some of the links. -/
structure Graph.Copying (g : Graph) (ids : IdMap) (n : Graph) : Prop where
  inj : ∀ {a a' y}, ids.lookup a = some y → ids.lookup a' = some y → a = a'
  blocks : ∀ x b, g.get? x = some b →
    ∃ y c, ids.lookup x.index = some y ∧ n.get? y = some c ∧ b.Copies ids c
  all : ∀ y ∈ n.ids, ∃ x ∈ g.ids, ids.lookup x.index = some y
  links : ∀ r s, n.source? r = some s → ∃ x t, ids.lookup x.index = some r.block ∧
    g.source? ⟨x, r.index⟩ = some t ∧ ids.lookup t.block.index = some s.block ∧ s.index = t.index

namespace Graph.Copying

variable {g n : Graph} {ids : IdMap} {x y z : BlockId} {b : Block} {t : SocketRef} {j : Nat}
  (h : g.Copying ids n)
include h

theorem block (hb : g.get? x = some b) (hy : ids.lookup x.index = some y) :
    ∃ c, n.get? y = some c ∧ b.Copies ids c := by
  obtain ⟨y', c, hy', hc, copies⟩ := h.blocks x b hb
  cases hy.symm.trans hy'
  exact ⟨c, hc, copies⟩

theorem traces : g.Traces ids n where
  inj := h.inj
  blocks x b hb := by
    obtain ⟨y, c, hy, hc, copies⟩ := h.blocks x b hb
    exact ⟨y, c, hy, hc, copies.inputs, copies.outputs⟩
  links := h.links
  entries y z origin there := by
    obtain ⟨c, hc, hentry⟩ := origin?_eq_some_iff.mp origin
    obtain ⟨x, hx, hy⟩ := h.all y (mem_ids_iff.mpr ⟨c, hc⟩)
    obtain ⟨b, hb⟩ := mem_ids_iff.mp hx
    obtain ⟨c', hc', copies⟩ := h.block hb hy
    cases hc.symm.trans hc'
    rw [copies.kind.entry] at hentry
    obtain ⟨e, he, hz⟩ := bind_eq_some_iff.mp hentry
    obtain ⟨e', there, hz'⟩ := h.all z there
    obtain rfl := BlockId.index_inj.mp (h.inj hz hz')
    exact ⟨x, e, hy, .inr ⟨origin?_eq_some_iff.mpr ⟨b, hb, he⟩, there⟩, hz⟩

theorem link {p : InputSocket} (hp : n.input? ⟨y, j⟩ = some p) (ht : g.source? ⟨x, j⟩ = some t)
    (hx : ids.lookup x.index = some y) (hz : ids.lookup t.block.index = some z) :
    g.Copying ids (n.link ⟨z, t.index⟩ ⟨y, j⟩) where
  inj := h.inj
  blocks x b hb := by
    obtain ⟨y', c, hy', hc, copies⟩ := h.blocks x b hb
    have same := map_link Block.unjoined_face n ⟨z, t.index⟩ ⟨y, j⟩ y'
    rw [hc, map_some] at same
    obtain ⟨c', hc', face⟩ := map_eq_some_iff.mp same
    exact ⟨y', c', hy', hc', copies.of_face face⟩
  all y' hy' := h.all y' (by rwa [ids_link] at hy')
  links := h.traces.links_link hp ht hx hz

end Graph.Copying

/-! ## 4. Blocks and teleports -/

/-- A block that nothing feeds reaches no other block. -/
theorem Graph.reaches_eq_false_of_unfed {x y : BlockId} (unfed : ∀ z, ¬g.Upstream x z)
    (other : x ≠ y) (there : y ∈ g.ids) : g.reaches x y = false := by
  rw [Bool.eq_false_iff]
  intro reaches
  rcases ((reaches_iff there).mp reaches).cases_head with same | ⟨z, up, -⟩
  · exact other same
  · exact unfed z up

namespace Kind

variable {k : Kind} {ids : IdMap}

theorem pending_resolved (ids : IdMap) (k : Kind) : (k.resolved ids).takePending.1 = none := by
  cases k with
  | teleportOut t =>
    unfold resolved
    cases hp : t.pending <;> simp [takePending, hp, setTeleportEntry]
  | _ => rfl

theorem isTeleportOut_takePending {entry : Nat} (h : k.takePending.1 = some entry) :
    k.takePending.2.isTeleportOut = true := by
  cases k with
  | teleportOut t => rfl
  | _ => cases h

theorem eq_teleportIn (h : k.isTeleportIn = true) : k = .teleportIn := by
  cases k with
  | teleportIn => rfl
  | _ => cases h

end Kind

/-- A block that waits for an entry is given one that nothing feeds. -/
theorem Graph.exists_setTeleportEntry {x e : BlockId} {b a : Block} {number : Nat}
    (hb : g.get? x = some b) (hp : b.kind.takePending.1 = some number) (ha : g.get? e = some a)
    (isIn : a.kind = .teleportIn) (free : ∀ i, g.source? ⟨e, i⟩ = none) :
    ∃ g', (g.modify x fun b => { b with kind := b.kind.takePending.2 }).setTeleportEntry x
      (some e) = .ok g' := by
  have other : e ≠ x := by
    rintro rfl
    cases hb.symm.trans ha
    rw [isIn] at hp
    cases hp
  have get := get?_modify g x (f := fun b => { b with kind := b.kind.takePending.2 })
    (by intro; rfl)
  have entry := (get e).trans (if_neg other) |>.trans ha
  have unfed : ∀ y, ¬(g.modify x fun b =>
      { b with kind := b.kind.takePending.2 }).Upstream e y := by
    rintro y (⟨i, s, source, -⟩ | ⟨origin, -⟩)
    · rw [source?_modify _ (by intro; rfl) (by intro; rfl), free] at source
      cases source
    · obtain ⟨a', ha', behind⟩ := origin?_eq_some_iff.mp origin
      rw [← Option.some.inj (entry.symm.trans ha'), isIn] at behind
      cases behind
  have here := (get x).trans (if_pos rfl) |>.trans (congrArg _ hb)
  refine ⟨_, setTeleportEntry_eq_ok_iff.mpr ⟨⟨_, here, ?_⟩, rfl⟩⟩
  rintro _ ⟨⟩
  exact ⟨isTeleportOut_takePending hp, isEntry_iff.mpr ⟨a, entry, by rw [isIn]; rfl⟩,
    reaches_eq_false_of_unfed unfed other (mem_ids_iff.mpr ⟨_, here⟩)⟩

namespace Load

variable {m n m₀ m₁ m₂ : Material} {ids : IdMap} {x y : BlockId} {b : Block}

theorem kindOf_blockEntry (g : Graph) (h : b.kind.Storable) :
    ∃ k, kindOf .builtin (g.blockEntry b) = .ok k ∧ b.kind.Restores k := by
  obtain ⟨k, hk, restores⟩ := exists_restores h
  have created : Registry.builtin.create (g.blockEntry b).tag = .ok b.kind.initial :=
    b.kind.create_className
  exact ⟨k, kindOf_eq_ok_iff.mpr ⟨_, created, hk⟩, restores⟩

theorem Teleported.kind_eq {xs : List BlockId} (h : Teleported ids xs m n)
    (hb : m.graph.get? y = some b) :
    ∃ c, n.graph.get? y = some c ∧ (c.kind = b.kind ∨ c.kind = b.kind.resolved ids) := by
  rw [h.get?, hb, map_some]
  refine ⟨_, rfl, ?_⟩
  split
  · exact .inr rfl
  · exact .inl rfl

section Copy

variable (hm : m.Intact) (added : Added .builtin m.toDocument.blocks m₀ ids m₁)
include hm added

theorem Added.unfed (hx : x ∈ m.graph.ids) (hy : ids.lookup x.index = some y) (i : Nat) :
    m₁.graph.source? ⟨y, i⟩ = none := by
  obtain ⟨b, hb⟩ := mem_ids_iff.mp hx
  exact added.source?_eq_none (hm.blockEntry_mem hb) (id_blockEntry hb ▸ hy) i

variable (hs : ∀ b ∈ m.graph.blocks, b.kind.Storable)
include hs

theorem Added.restored (hb : m.graph.get? x = some b) : ∃ y k, ids.lookup x.index = some y ∧
    b.kind.Restores k ∧ m₁.graph.get? y = some ((m.graph.blockEntry b).block y k) := by
  obtain ⟨k, hk, restores⟩ := kindOf_blockEntry m.graph (hs b (mem_of_get? hb))
  obtain ⟨y, k', hy, hk', hget⟩ := added.made _ (hm.blockEntry_mem hb)
  cases hk.symm.trans hk'
  exact ⟨y, k, id_blockEntry hb ▸ hy, restores, hget⟩

/-- A teleport can be restored: its entry has been made, and nothing feeds the entry yet. -/
theorem exists_gives_restoreTeleport {xs : List BlockId} (teleported : Teleported ids xs m₁ n)
    (hb : m.graph.get? x = some b) :
    ∃ n', Gives (restoreTeleport ids (m.graph.blockEntry b)) n ⟨⟩ n' := by
  obtain ⟨y, k, hy, restores, hget⟩ := added.restored hm hs hb
  have hy' : ids.lookup (m.graph.blockEntry b).id = some y := by rwa [id_blockEntry hb]
  obtain ⟨c, hc, kind⟩ := teleported.kind_eq hget
  cases hp : c.kind.takePending.1 with
  | none =>
    refine ⟨{ n with graph := n.graph.modify y fun c => { c with kind := c.kind.takePending.2 } },
      (gives_restoreTeleport_iff hy' hc).mpr ⟨_, rfl, ?_⟩⟩
    rw [hp]
  | some entry =>
    have fresh : c.kind = k := by
      -- a kind that was resolved waits for nothing
      refine kind.resolve_right fun resolved => ?_
      rw [resolved, pending_resolved] at hp
      cases hp
    obtain ⟨e, he, rfl⟩ : ∃ e, b.kind.teleportEntry = some e ∧ e.index = entry := by
      rw [fresh, restores.pending] at hp
      exact map_eq_some_iff.mp hp
    have origin := origin?_eq_some_iff.mpr ⟨b, hb, he⟩
    obtain ⟨a, ha, isIn⟩ := isEntry_iff.mp (hm.isEntry origin)
    obtain ⟨z, k', hz, restores', hget'⟩ := added.restored hm hs ha
    obtain rfl := eq_teleportIn (restores'.teleportIn.trans isIn)
    obtain ⟨d, hd, kind'⟩ := teleported.kind_eq hget'
    replace kind' : d.kind = .teleportIn := kind'.elim id id
    obtain ⟨g, hg⟩ := exists_setTeleportEntry hc hp hd kind' fun i => by
      rw [teleported.source?, added.unfed hm (mem_ids_iff.mpr ⟨a, ha⟩) hz]
    refine ⟨{ n with graph := g }, (gives_restoreTeleport_iff hy' hc).mpr ⟨g, rfl, ?_⟩⟩
    rw [hp]
    exact ⟨z, hz, hg⟩

theorem exists_gives_restoreTeleports :
    ∃ m₂, Gives (m.toDocument.blocks.forM (restoreTeleport ids)) m₁ ⟨⟩ m₂ := by
  have run := exists_gives_forM (restoreTeleport ids) m.toDocument.blocks (m := m₁)
    (P := fun rest n => rest ⊆ m.toDocument.blocks ∧ ∃ xs, Teleported ids xs m₁ n) ?_ ?_
  · obtain ⟨m₂, h, -⟩ := run
    exact ⟨m₂, h⟩
  · rintro e rest n ⟨within, xs, teleported⟩
    rw [cons_subset] at within
    obtain ⟨x, b, hb, rfl⟩ := (mem_blocks_iff hm.graph.coherent.distinct).mp within.1
    obtain ⟨n', h⟩ := exists_gives_restoreTeleport hm added hs teleported hb
    obtain ⟨y, k, hy, -, hget⟩ := added.restored hm hs hb
    obtain ⟨c, hc, -⟩ := teleported.kind_eq hget
    obtain rfl := id_of_get? hb
    exact ⟨n', h, within.2, _, teleported.trans (teleported_of_gives hy hc h)⟩
  · exact ⟨List.Subset.refl _, [], rfl, rfl, rfl, fun y => by simp⟩

section Teleported

variable (empty : m₀.graph.blocks = []) (teleported : Teleported ids (ids.map Prod.snd) m₁ m₂)
include empty teleported

omit hs in
theorem Teleported.all (hy : y ∈ m₂.graph.ids) :
    ∃ x ∈ m.graph.ids, ids.lookup x.index = some y := by
  have values : m₁.graph.ids = ids.map Prod.snd := by
    rw [added.values, Graph.ids, empty]
    rfl
  rw [teleported.ids_eq, values] at hy
  obtain ⟨⟨a, y⟩, ha, rfl⟩ := mem_map.mp hy
  have key : a ∈ m.toDocument.ids := by
    rw [Document.ids, ← added.keys]
    exact mem_map_of_mem ha
  obtain ⟨x, hx, rfl⟩ := (mem_ids_iff hm.graph.coherent.distinct).mp key
  refine ⟨x, hx, lookup_of_mem ?_ ha⟩
  rw [added.keys]
  exact hm.referring.distinct

omit hs in
theorem Teleported.unlinked (r : SocketRef) : m₂.graph.source? r = none := by
  rw [eq_none_iff_forall_ne_some]
  intro s source
  obtain ⟨p, hp, -⟩ := source?_eq_some_iff.mp source
  obtain ⟨c, hc, -⟩ := input?_eq_some_iff.mp hp
  obtain ⟨x, hx, hy⟩ := teleported.all hm added empty (mem_ids_iff.mpr ⟨c, hc⟩)
  rw [teleported.source?, added.unfed hm hx hy] at source
  cases source

/-- The blocks are copied once their teleports are restored. -/
theorem Teleported.copying : m.graph.Copying ids m₂.graph where
  inj := added.lookup_inj
  all y := teleported.all hm added empty
  blocks x b hb := by
    obtain ⟨y, k, hy, restores, hget⟩ := added.restored hm hs hb
    have here : y ∈ ids.map Prod.snd := mem_map_of_mem (mem_of_lookup hy)
    have now := teleported.get? y
    rw [hget, map_some, if_pos here] at now
    refine ⟨y, _, hy, now, ⟨rfl, rfl, restores.resolved ids, ?_, ?_⟩⟩
    · rw [(hm.graph.fitted x b hb).inputs, ← restores.inputs]
      simp [BlockEntry.block, Block.new, Function.comp_def]
    · rw [hm.declared.outputs x b hb, ← restores.outputs]
      simp [BlockEntry.block, Block.new, Function.comp_def]
  links r s source := by
    rw [teleported.unlinked hm added empty] at source
    cases source

end Teleported

end Copy

end Load

/-! ## 5. Links -/

theorem Document.Referring.nodup_restoreOrder {d : Document} (hd : d.Referring) (merge : Bool) :
    ((d.restoreOrder merge).map BlockEntry.id).Nodup := by
  rw [restoreOrder, map_filterMap]
  refine (Search.nodup_breadth _ _ _ _).1.filterMap fun x y z hx hy => ?_
  simp only [mem_def, map_eq_some_iff, hd.find?_eq_some_iff] at hx hy
  obtain ⟨b, ⟨-, rfl⟩, rfl⟩ := hx
  obtain ⟨c, ⟨-, rfl⟩, same⟩ := hy
  exact same.symm

theorem Graph.Placed.unique {source target : BlockId} {output input : String} {i j i' j' : Nat}
    (h : g.Placed source output target input i j) (h' : g.Placed source output target input i' j') :
    i = i' ∧ j = j' := by
  obtain ⟨⟨a, ha, hi⟩, b, hb, hj⟩ := h
  obtain ⟨⟨a', ha', hi'⟩, b', hb', hj'⟩ := h'
  cases ha.symm.trans ha'
  cases hb.symm.trans hb'
  exact ⟨Option.some.inj (hi.symm.trans hi'), Option.some.inj (hj.symm.trans hj')⟩

namespace Load

variable {m n n' : Material} {ids : IdMap} {x y : BlockId} {b : Block} {l : LinkEntry}

section Links

variable (hm : m.Intact)
include hm

theorem exists_gives_restoreLink (copying : m.graph.Copying ids n.graph)
    (hb : m.graph.get? x = some b) (hy : ids.lookup x.index = some y)
    (hl : l ∈ (m.graph.blockEntry b).links)
    (free : ∀ j, b.inputIndex? l.input = some j → n.graph.source? ⟨y, j⟩ = none) :
    ∃ n', Gives (restoreLink ids (m.graph.blockEntry b) l) n ⟨⟩ n' ∧
      m.graph.Copying ids n'.graph ∧ ∀ r, n'.graph.source? r = n.graph.source? r ∨
        r.block = y ∧ b.inputIndex? l.input = some r.index := by
  obtain ⟨j, t, o, p, ht, hp, ho, rfl⟩ := (mem_links_iff hb).mp hl
  have index : b.inputIndex? p.spec.name = some j :=
    (hm.graph.fitted x b hb).inputIndex?_eq_some_iff.mpr ⟨p, hp, rfl⟩
  have input : m.graph.input? ⟨x, j⟩ = some p := input?_eq_some_iff.mpr ⟨b, hb, hp⟩
  obtain ⟨a, ha, -⟩ := output?_eq_some_iff.mp ho
  obtain ⟨z, -, hz, -⟩ := copying.blocks _ _ ha
  have connected :=
    copying.traces.connectNamed_eq_ok hm.graph hm.declared ht input ho hy hz (free j index)
  obtain ⟨p', hp', -⟩ := copying.traces.input? input hy
  refine ⟨{ n with graph := n.graph.link ⟨z, t.index⟩ ⟨y, j⟩ }, ?_, copying.link hp' ht hy hz, ?_⟩
  · simp only [restoreLink, id_blockEntry hb, hz, hy]
    exact gives_onGraph_iff.mpr ⟨_, connected, rfl⟩
  · intro r
    rw [source?_link hp']
    split
    · rename_i here
      subst here
      exact .inr ⟨rfl, index⟩
    · exact .inl rfl

/-- The links of a block that has none yet can be restored. -/
theorem exists_gives_restoreLinks (copying : m.graph.Copying ids n.graph)
    (hb : m.graph.get? x = some b) (hy : ids.lookup x.index = some y)
    (free : ∀ j, n.graph.source? ⟨y, j⟩ = none) :
    ∃ n', Gives ((m.graph.blockEntry b).links.forM (restoreLink ids (m.graph.blockEntry b)))
        n ⟨⟩ n' ∧
      m.graph.Copying ids n'.graph ∧
      ∀ r, r.block ≠ y → n'.graph.source? r = n.graph.source? r := by
  have fitted := hm.graph.fitted x b hb
  -- the links that are still to come go to inputs that are still free
  have run := exists_gives_forM (restoreLink ids (m.graph.blockEntry b))
    (m.graph.blockEntry b).links (m := n)
    (P := fun rest n' => rest ⊆ (m.graph.blockEntry b).links ∧ (rest.map LinkEntry.input).Nodup ∧
      m.graph.Copying ids n'.graph ∧
      (∀ l ∈ rest, ∀ j, b.inputIndex? l.input = some j → n'.graph.source? ⟨y, j⟩ = none) ∧
      ∀ r, r.block ≠ y → n'.graph.source? r = n.graph.source? r) ?_ ?_
  · obtain ⟨n', gives, -, -, copying, -, others⟩ := run
    exact ⟨n', gives, copying, others⟩
  · rintro l rest n₁ ⟨within, distinct, copying, free, others⟩
    rw [cons_subset] at within
    rw [map_cons, nodup_cons] at distinct
    rw [forall_mem_cons] at free
    obtain ⟨n₂, gives, copying, changed⟩ :=
      exists_gives_restoreLink hm copying hb hy within.1 free.1
    refine ⟨n₂, gives, within.2, distinct.2, copying, ?_, ?_⟩
    · intro l' hl' j hj
      rcases changed ⟨y, j⟩ with same | ⟨-, hj'⟩
      · rw [same]
        exact free.2 l' hl' j hj
      · obtain ⟨p, hp, hname⟩ := fitted.inputIndex?_eq_some_iff.mp hj
        obtain ⟨p', hp', hname'⟩ := fitted.inputIndex?_eq_some_iff.mp hj'
        cases hp.symm.trans hp'
        exact absurd (mem_map.mpr ⟨l', hl', hname.symm.trans hname'⟩) distinct.1
    · intro r hr
      rcases changed r with same | ⟨here, -⟩
      · rw [same]
        exact others r hr
      · exact absurd here hr
  · exact ⟨List.Subset.refl _, nodup_links fitted, copying, fun _ _ j _ => free j,
      fun _ _ => rfl⟩

theorem exists_gives_links (copying : m.graph.Copying ids n.graph)
    (free : ∀ r, n.graph.source? r = none) :
    ∃ n', Gives ((m.toDocument.restoreOrder false).forM fun consumer =>
        consumer.links.forM (restoreLink ids consumer)) n ⟨⟩ n' ∧
      m.graph.Copying ids n'.graph := by
  -- the blocks that are still to come have no links
  have run := exists_gives_forM (fun consumer => consumer.links.forM (restoreLink ids consumer))
    (m.toDocument.restoreOrder false) (m := n)
    (P := fun rest n' => (∀ e ∈ rest, e ∈ m.toDocument.blocks) ∧ (rest.map BlockEntry.id).Nodup ∧
      m.graph.Copying ids n'.graph ∧ ∀ e ∈ rest, ∀ y, ids.lookup e.id = some y →
        ∀ j, n'.graph.source? ⟨y, j⟩ = none) ?_ ?_
  · obtain ⟨n', gives, -, -, copying, -⟩ := run
    exact ⟨n', gives, copying⟩
  · rintro e rest n₁ ⟨within, distinct, copying, free⟩
    rw [forall_mem_cons] at within free
    rw [map_cons, nodup_cons] at distinct
    obtain ⟨x, b, hb, rfl⟩ := (mem_blocks_iff hm.graph.coherent.distinct).mp within.1
    obtain ⟨y, -, hy, -⟩ := copying.blocks x b hb
    have hy' : ids.lookup (m.graph.blockEntry b).id = some y := by rwa [id_blockEntry hb]
    obtain ⟨n₂, gives, copying, others⟩ :=
      exists_gives_restoreLinks hm copying hb hy (free.1 y hy')
    refine ⟨n₂, gives, within.2, distinct.2, copying, fun e he z hz j => ?_⟩
    rw [others]
    · exact free.2 e he z hz j
    · rintro rfl
      exact distinct.1 (copying.inj hy' hz ▸ mem_map_of_mem he)
  · exact ⟨fun e he => (hm.referring.mem_restoreOrder_iff.mp he).1,
      hm.referring.nodup_restoreOrder false, copying, fun _ _ _ _ j => free _⟩

/-- After the links are restored, what feeds the copy of a block is the copy of what feeds it. -/
theorem Relinked.source?_eq (copying : m.graph.Copying ids n'.graph)
    (relinked : Relinked (fun p o c i => ∃ b ∈ m.toDocument.restoreOrder false, ∃ l ∈ b.links,
      Wanted ids b l p o c i) n n') (hy : ids.lookup x.index = some y) (j : Nat) :
    n'.graph.source? ⟨y, j⟩ =
      (m.graph.source? ⟨x, j⟩).bind fun s => (ids.lookup s.block.index).map (⟨·, s.index⟩) := by
  cases ht : m.graph.source? ⟨x, j⟩ with
  | none =>
    rw [bind_none, eq_none_iff_forall_ne_some]
    intro s source
    obtain ⟨x', t, hx', ht', -⟩ := copying.links _ _ source
    obtain rfl := copying.traces.eq_of_lookup hy hx'
    exact absurd (ht.symm.trans ht') nofun
  | some t =>
    obtain ⟨p, hp, -⟩ := source?_eq_some_iff.mp ht
    obtain ⟨b, hb, hj⟩ := input?_eq_some_iff.mp hp
    obtain ⟨o, ho, -⟩ := hm.graph.coherent.exists_output ht
    obtain ⟨a, ha, -⟩ := output?_eq_some_iff.mp ho
    obtain ⟨z, -, hz, -⟩ := copying.blocks _ _ ha
    have hl := (mem_links_iff hb).mpr ⟨j, t, o, p, ht, hj, ho, rfl⟩
    have restored : m.graph.blockEntry b ∈ m.toDocument.restoreOrder false := by
      refine hm.referring.mem_restoreOrder_iff.mpr
        ⟨hm.blockEntry_mem hb, ne_nil_of_mem hl, .inr ?_⟩
      exact hm.grounded (mem_map_of_mem (mem_of_get? hb))
    obtain rfl := id_of_get? hb
    obtain ⟨i', j', placed, feeds⟩ :=
      relinked.made z o.spec.name y p.spec.name ⟨_, restored, _, hl, hz, rfl, hy, rfl⟩
    obtain ⟨rfl, rfl⟩ := placed.unique (copying.traces.placed hm.graph.fitted hp ho hy hz)
    rw [feeds, bind_some, hz]
    rfl

end Links

end Load

/-! ## 6. Roots -/

namespace Load

variable {m n m' : Material} {ids : IdMap}

/-- All roots can be added, and they come in the order in which they were saved. -/
theorem exists_gives_addRoots (hm : m.Intact) (copying : m.graph.Copying ids n.graph)
    (empty : n.roots = {}) :
    ∃ n', Gives (m.toDocument.outputs.forM (addRoot ids)) n ⟨⟩ n' ∧
      m.RootImages ids m.roots.all n' := by
  have run := exists_gives_forM (addRoot ids) m.toDocument.outputs (m := n)
    (P := fun rest n' => n'.graph = n.graph ∧ ∃ done todo, m.roots.all = done ++ todo ∧
      rest = todo.map BlockId.index ∧ m.RootImages ids done n') ?_ ?_
  · obtain ⟨n', gives, -, done, todo, all, none, roots⟩ := run
    obtain rfl := map_eq_nil_iff.mp none.symm
    rw [append_nil] at all
    exact ⟨n', gives, all ▸ roots⟩
  · rintro output rest n₁ ⟨graph, done, todo, all, items, images⟩
    cases todo with
    | nil => cases items
    | cons x todo =>
      cases items
      have listed : x ∈ m.roots.all := by
        rw [all]
        exact mem_append_right _ mem_cons_self
      obtain ⟨stage, hx⟩ := mem_roots_all_iff.mp listed
      obtain ⟨b, hb, -⟩ := hm.rooted.staged x stage hx
      obtain ⟨y, c, hy, hc, copies⟩ := copying.blocks x b hb
      obtain ⟨added, images⟩ := hm.rooted.addRoot_image copying.inj all hb hy (graph ▸ hc)
        copies.kind.target images
      refine ⟨{ n₁ with roots := n₁.roots.add c.target y }, gives_addRoot_iff.mpr ?_, graph,
        done ++ [x], todo, by rw [all, append_assoc]; rfl, rfl, images⟩
      rw [hy]
      exact added
  · refine ⟨rfl, [], m.roots.all, rfl, rfl, fun stage => ?_⟩
    rw [empty]
    cases stage <;> rfl

end Load

/-! ## 7. Round trips -/

namespace Material

variable {m m' : Material} {ids : IdMap}

/-- Two materials that say the same, with their blocks under other identities. The order of the
blocks may differ, and that of the roots of the fragment stage. -/
structure Isomorphic (ids : IdMap) (m m' : Material) : Prop where
  inj : ∀ x y z, ids.lookup x = some z → ids.lookup y = some z → x = y
  onto : ∀ y ∈ m'.graph.ids, ∃ x ∈ m.graph.ids, ids.lookup x.index = some y
  blocks : ∀ x b, m.graph.get? x = some b →
    ∃ y c, ids.lookup x.index = some y ∧ m'.graph.get? y = some c ∧ b.Copies ids c
  links : ∀ x y j, ids.lookup x.index = some y → m'.graph.source? ⟨y, j⟩ =
    (m.graph.source? ⟨x, j⟩).bind fun s => (ids.lookup s.block.index).map (⟨·, s.index⟩)
  vertex : m'.roots.vertex.map some = m.roots.vertex.map fun x => ids.lookup x.index
  fragment : ∀ y, y ∈ m'.roots.fragment ↔ ∃ x ∈ m.roots.fragment, ids.lookup x.index = some y
  name : m'.name = m.name
  mode : m'.mode = m.mode
  comment : m'.comment = m.comment
  locations : m'.locations = m.locations
  editorData : m'.editorData = m.editorData

/-- Loading what was saved gives the material again. -/
theorem Intact.exists_load (hm : m.Intact) (hs : ∀ b ∈ m.graph.blocks, b.kind.Storable)
    (m₀ : Material) : ∃ ids m', m₀.load m.toDocument .builtin false = (.ok ids, m') ∧
      m.Isomorphic ids m' := by
  have hd := hm.referring
  -- the stages of the load in turn, each with what it has done
  have kinds : ∀ e ∈ m.toDocument.blocks, ∃ kind, Load.kindOf .builtin e = .ok kind := by
    intro e he
    obtain ⟨x, b, hb, rfl⟩ := (mem_blocks_iff hm.graph.coherent.distinct).mp he
    obtain ⟨kind, hkind, -⟩ := kindOf_blockEntry m.graph (hs b (mem_of_get? hb))
    exact ⟨kind, hkind⟩
  obtain ⟨ids, m₁, h₁⟩ := exists_gives_addBlocks (m := m.toDocument.replaceIn m₀) kinds
  have counted : (m.toDocument.replaceIn m₀).graph.Counted := ⟨nodup_nil, nofun⟩
  have added := added_of_gives counted hd.distinct h₁
  obtain ⟨m₂, h₂⟩ := exists_gives_restoreTeleports hm added hs
  have teleported :=
    teleported_of_gives_forM (added.lookups hd.distinct) (fun _ => added.mem_ids) h₂
  have copying := teleported.copying hm added hs rfl
  obtain ⟨m₃, h₃, copying⟩ :=
    exists_gives_links hm copying (teleported.unlinked hm added rfl)
  have relinked := relinked_of_gives h₃
  have frame : m₃ = { m.toDocument.replaceIn m₀ with graph := m₃.graph } := by
    rw [relinked.frame, teleported.frame, added.frame]
  have empty : m₃.roots = {} := by
    rw [frame]
    rfl
  obtain ⟨m', h₄, roots⟩ := exists_gives_addRoots hm copying empty
  have frame' := frame_addRoots h₄
  have graph : m'.graph = m₃.graph := by rw [frame']
  refine ⟨ids, m', gives_loader_iff.mpr ⟨hd, m₁, m₂, m₃, h₁, h₂, h₃, h₄⟩, ?_⟩
  constructor
  case inj => exact fun x y z => copying.inj
  case onto => exact graph ▸ copying.all
  case blocks => exact graph ▸ copying.blocks
  case links => exact fun x y j hy => graph ▸ relinked.source?_eq hm copying hy j
  case vertex => exact roots.vertex hm.rooted
  case fragment => exact roots.fragment
  all_goals
    rw [frame', frame]
    rfl

/-- A crafted material whose settings documents can hold is saved with right references and every
block once, and loading the document gives the material again. -/
theorem load_toDocument (hm : m.Crafted) (hs : ∀ b ∈ m.graph.blocks, b.kind.Storable)
    (nextId : Nat) :
    m.toDocument.fault? = none ∧
      m.toDocument.blocks.Perm (m.graph.blocks.map m.graph.blockEntry) ∧
      ∃ ids m', ({ name := m.name, graph := { nextId } } : Material).load m.toDocument .builtin
          false = (.ok ids, m') ∧
        ofDocument m.toDocument .builtin nextId = (.ok m', m'.graph.nextId) ∧
        m.Isomorphic ids m' := by
  have intact := hm.intact
  refine ⟨Document.fault?_eq_none_iff.mpr intact.referring,
    (saved_perm intact.graph.coherent.distinct).map _, ?_⟩
  obtain ⟨ids, m', load, iso⟩ := intact.exists_load hs { name := m.name, graph := { nextId } }
  refine ⟨ids, m', load, ?_, iso⟩
  have start : m.toDocument.name = m.name := rfl
  rw [ofDocument, start, load]
  rfl

def parts : Material :=
  let half := ({ name := "relay" } : Material).addBlock "half"
    (.input (.ofConstant (.float ⟨false, 0x3f000000⟩)))
  let relayed := (half.addBlock "entry" .teleportIn).addBlock "exit" (.teleportOut {})
  (relayed.addBlock "sum" (.math .add)).addBlock "pixel" (.fragmentOutput {})

/-- A number that goes through a teleport, is doubled, and becomes the alpha of a pixel. -/
def relay : Material :=
  let entered := (parts.graph.link ⟨⟨1⟩, 0⟩ ⟨⟨2⟩, 0⟩).withEntry ⟨3⟩ (some ⟨2⟩)
  let doubled := (entered.link ⟨⟨3⟩, 0⟩ ⟨⟨4⟩, 0⟩).link ⟨⟨3⟩, 0⟩ ⟨⟨4⟩, 1⟩
  { parts with graph := doubled.link ⟨⟨4⟩, 0⟩ ⟨⟨5⟩, 2⟩, roots := ⟨[], [⟨5⟩]⟩ }

theorem crafted_relay : relay.Crafted := by
  have blocks : parts.Crafted := Crafted.new "relay" {} 1
    |>.addBlock "half" (.input (.ofConstant (.float ⟨false, 0x3f000000⟩))) rfl
    |>.addBlock "entry" .teleportIn rfl
    |>.addBlock "exit" (.teleportOut {}) rfl
    |>.addBlock "sum" (.math .add) rfl
    |>.addBlock "pixel" (.fragmentOutput {}) rfl
  have entry := blocks.connectAll [(⟨⟨1⟩, 0⟩, ⟨⟨2⟩, 0⟩)]
    (parts.graph.link ⟨⟨1⟩, 0⟩ ⟨⟨2⟩, 0⟩) (by cbv)
  have teleport : Crafted { parts with
      graph := (parts.graph.link ⟨⟨1⟩, 0⟩ ⟨⟨2⟩, 0⟩).withEntry ⟨3⟩ (some ⟨2⟩) } := by
    refine entry.setTeleportEntry (setTeleportEntry_eq_ok_iff.mpr ⟨⟨_, rfl, ?_⟩, rfl⟩)
    rintro _ ⟨⟩
    exact ⟨rfl, rfl, by cbv⟩
  have alpha := teleport.connectAll [(⟨⟨3⟩, 0⟩, ⟨⟨4⟩, 0⟩), (⟨⟨3⟩, 0⟩, ⟨⟨4⟩, 1⟩),
    (⟨⟨4⟩, 0⟩, ⟨⟨5⟩, 2⟩)] relay.graph (by cbv)
  exact alpha.addRoot (show addRoot _ ⟨5⟩ = .ok relay from rfl)

theorem storable_relay : ∀ b ∈ relay.graph.blocks, b.kind.Storable := by
  have kinds : relay.graph.blocks.map Block.kind =
      [.input (.ofConstant (.float ⟨false, 0x3f000000⟩)), .teleportIn,
        .teleportOut { entry := some ⟨2⟩ }, .math .add, .fragmentOutput {}] := rfl
  intro b hb
  have kind := mem_map_of_mem (f := Block.kind) hb
  rw [kinds] at kind
  simp only [mem_cons, not_mem_nil, or_false] at kind
  rcases kind with h | h | h | h | h
  · rw [h]
    rintro v ⟨⟩ x hx
    rw [mem_singleton.mp hx]
    decide
  · rw [h]
    trivial
  · rw [h]
    rintro _ ⟨⟩
    decide
  · rw [h]
    trivial
  · rw [h]
    trivial

theorem relay_load_toDocument :
    relay.Crafted ∧ (∀ b ∈ relay.graph.blocks, b.kind.Storable) ∧
      relay.toDocument.fault? = none ∧
      relay.toDocument.blocks.Perm (relay.graph.blocks.map relay.graph.blockEntry) ∧
      ∃ ids m', ({ name := "relay", graph := { nextId := 6 } } : Material).load relay.toDocument
          .builtin false = (.ok ids, m') ∧
        ofDocument relay.toDocument .builtin 6 = (.ok m', m'.graph.nextId) ∧
        relay.Isomorphic ids m' :=
  ⟨crafted_relay, storable_relay, load_toDocument crafted_relay storable_relay 6⟩

end Material

end ShaderGraph
