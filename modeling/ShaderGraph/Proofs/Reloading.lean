import ShaderGraph.Proofs.Defines
import ShaderGraph.Proofs.Rebuilding
import ShaderGraph.Proofs.RoundTrip

/-!
# Building what was loaded

A load gives other identities to the blocks of a saved material, and puts them into another order.
A build depends on neither: the material that is loaded compiles to the same program as the one that
was saved (`Material.build_reloaded`). Leftovers of earlier passes, which are not saved, do not
matter either.

Two materials are left out. If wishes are fulfilled, the first block of the graph that can serve one
is taken, and which block is first depends on the order. And a document lists every root once, so
that a root of both stages may come earlier in the fragment stage than it did.
-/

namespace ShaderGraph

open List ShaderGraph.Graph

variable {k : Kind} {g : Graph}

/-! ## 1. Identities, settings and roots -/

section Place

variable {ids : IdMap} {n : Nat} {x y : BlockId}

/-- The identity that a load gave to a block. Identities that were not saved go beyond `n`, where no
block is. -/
def IdMap.place (ids : IdMap) (n : Nat) (x : BlockId) : BlockId :=
  (ids.lookup x.index).getD ⟨n + x.index⟩

theorem IdMap.place_of_lookup (n : Nat) (h : ids.lookup x.index = some y) : ids.place n x = y := by
  rw [place, h]
  rfl

theorem IdMap.injective_place
    (inj : ∀ a a' y, ids.lookup a = some y → ids.lookup a' = some y → a = a')
    (below : ∀ a y, ids.lookup a = some y → y.index < n) : (ids.place n).Injective := by
  have beyond : ∀ {x y : BlockId}, ids.lookup x.index = none → ids.lookup y.index ≠ none →
      ids.place n x ≠ ids.place n y := by
    intro x y hx hy same
    obtain ⟨z, hz⟩ := Option.ne_none_iff_exists'.mp hy
    rw [place_of_lookup n hz, place, hx] at same
    have bound := below _ _ hz
    rw [← same] at bound
    exact absurd bound (Nat.not_lt.mpr (Nat.le_add_right n x.index))
  intro x y same
  cases hx : ids.lookup x.index with
  | none =>
    cases hy : ids.lookup y.index with
    | none =>
      rw [place, place, hx, hy] at same
      exact BlockId.index_inj.mp (Nat.add_left_cancel (congrArg BlockId.index same))
    | some z => exact absurd same (beyond hx (by rw [hy]; nofun))
  | some z =>
    cases hy : ids.lookup y.index with
    | none => exact absurd same.symm (beyond hy (by rw [hx]; nofun))
    | some z' =>
      rw [place_of_lookup n hx, place_of_lookup n hy] at same
      exact BlockId.index_inj.mp (inj _ _ z hx (same ▸ hy))

end Place

/-- A kind that was read back, and whose teleport is restored, does the same in a pass. -/
theorem Kind.mirrors_resolved {k' : Kind} {ids : IdMap} {f : BlockId → BlockId} (h : k.Storable)
    (hk : k.initial.setFields? k.fields = some k')
    (entry : ∀ e, k.teleportEntry = some e → ids.lookup e.index = some (f e)) :
    k.bare.Mirrors f (k'.resolved ids).bare := by
  cases k with
  | input b =>
    simp only [initial, setFields?, fields, InputBlock.ofFields?_fields h, Option.map_some] at hk
    cases hk
    exact .input _
  | transform t =>
    simp only [initial, setFields?, fields, Transform.ofFields?_fields h.1 h.2,
      Option.map_some] at hk
    cases hk
    exact .transform _
  | clamp c =>
    simp only [initial, setFields?, fields, Clamp.ofFields?_fields h.1 h.2, Option.map_some] at hk
    cases hk
    exact .clamp _
  | fragmentOutput o =>
    simp only [initial, setFields?] at hk
    obtain ⟨o', -, rfl⟩ := Option.map_eq_some_iff.mp hk
    exact .fragmentOutput _ _
  | texture t =>
    obtain ⟨t', -, rfl⟩ := Option.map_eq_some_iff.mp hk
    exact .texture _ _
  | teleportOut t =>
    -- the entry was saved as a number, and what the number was given to is the entry now
    obtain ⟨k'', hk'', restores⟩ := exists_restores h
    cases hk.symm.trans hk''
    have restored := (restores.resolved ids).entry
    obtain ⟨t', -, rfl⟩ := Option.map_eq_some_iff.mp hk
    obtain ⟨t'', ht''⟩ : ∃ t'', (Kind.teleportOut t').resolved ids = .teleportOut t'' := by
      unfold resolved
      split <;> exact ⟨_, rfl⟩
    rw [ht''] at restored ⊢
    refine .teleportOut (restored.trans ?_)
    cases he : t.entry with
    | none => simp [teleportEntry, he]
    | some e => simp [teleportEntry, he, entry e he]
  | vertexOutput | math _ | lerp | vectorMerger | morphTargets _ | bones _ | fog _ | teleportIn =>
    cases hk
    constructor

theorem Registry.teleportEntry_builtin {tag : String} (h : builtin.create tag = .ok k) :
    k.teleportEntry = none := by
  have entries : ∀ e ∈ builtin.entries, e.2.teleportEntry = none := by decide +kernel
  exact entries _ (mem_of_create h)

theorem Load.setFields?_of_kindOf {b : Block} (h : kindOf .builtin (g.blockEntry b) = .ok k) :
    b.kind.initial.setFields? b.kind.fields = some k := by
  have created : Registry.builtin.create (g.blockEntry b).tag = .ok b.kind.initial :=
    b.kind.create_className
  obtain ⟨made, hmade, set⟩ := kindOf_eq_ok_iff.mp h
  cases created.symm.trans hmade
  exact set

theorem Graph.Coherent.isConnected_iff {s : SocketRef} {o : OutputSocket} (hg : g.Coherent)
    (ho : g.output? s = some o) : o.isConnected = true ↔ ∃ r, g.source? r = some s := by
  have endpoints : g.endpoints s = o.endpoints := by
    rw [endpoints, ho]
    rfl
  have connected : o.isConnected = true ↔ ∃ r, r ∈ o.endpoints := by
    rw [OutputSocket.isConnected, Bool.not_eq_true', isEmpty_eq_false_iff_exists_mem]
  rw [connected, ← endpoints]
  constructor
  · rintro ⟨r, hr⟩
    exact ⟨r, hg.answered r s hr⟩
  · rintro ⟨r, hr⟩
    exact ⟨r, count_pos_iff.mp (hg.listed r s hr ▸ Nat.one_pos)⟩

/-- A document lists the roots of the vertex stage and then the other ones. If no root is in both
stages, this keeps the order of both. -/
theorem Roots.filter_all {r : Roots} (distinct : (r.vertex ++ r.fragment).Nodup) (stage : Stage) :
    r.all.filter (· ∈ r.of stage) = r.of stage := by
  cases stage with
  | vertex => exact filter_all_vertex distinct.of_append_left
  | fragment =>
    have all : r.all = [] ++ (r.vertex ++ r.fragment) := foldl_pushNew_of_nodup distinct
    have others : r.vertex.filter (· ∈ r.fragment) = [] := by
      refine filter_eq_nil_iff.mpr fun x hv hf => ?_
      exact (nodup_append.mp distinct).2.2 x hv x (of_decide_eq_true hf) rfl
    rw [all, nil_append, of, filter_append, others, nil_append]
    exact filter_eq_self.mpr fun x hx => decide_eq_true hx

/-! ## 2. What a load keeps -/

namespace Material

variable {m m' : Material} {ids : IdMap} {x y : BlockId} {b c : Block}

/-- A material that was loaded from a saved one. Beyond what an isomorphism says, the settings of
all kinds were read back, and the roots come in the order of the document. -/
structure Reloaded (ids : IdMap) (m m' : Material) : Prop extends Isomorphic ids m m' where
  known : ∀ a y, ids.lookup a = some y → y ∈ m'.graph.ids
  kinds : ∀ x b y c, m.graph.get? x = some b → ids.lookup x.index = some y →
    m'.graph.get? y = some c →
    ∃ k, b.kind.initial.setFields? b.kind.fields = some k ∧ c.kind = k.resolved ids
  roots : ∀ stage, (m'.roots.of stage).map some =
    (m.roots.all.filter (· ∈ m.roots.of stage)).map fun x => ids.lookup x.index
  optimizers : m'.optimizers = []

theorem Isomorphic.copying (h : m.Isomorphic ids m') : m.graph.Copying ids m'.graph where
  inj := h.inj _ _ _
  blocks := h.blocks
  all := h.onto
  links r s hs := by
    obtain ⟨p, hp, -⟩ := source?_eq_some_iff.mp hs
    obtain ⟨c, hc, -⟩ := input?_eq_some_iff.mp hp
    obtain ⟨x, -, hx⟩ := h.onto r.block (Graph.mem_ids_iff.mpr ⟨c, hc⟩)
    rw [h.links x r.block r.index hx] at hs
    obtain ⟨t, ht, hs⟩ := Option.bind_eq_some_iff.mp hs
    obtain ⟨z, hz, rfl⟩ := Option.map_eq_some_iff.mp hs
    exact ⟨x, t, hx, ht, hz, rfl⟩

/-- What was saved can be loaded into a new material. -/
theorem Intact.exists_reloaded (hm : m.Intact) (hs : ∀ b ∈ m.graph.blocks, b.kind.Storable)
    (nextId : Nat) : ∃ ids m', ({ name := m.name, graph := { nextId } } : Material).load
      m.toDocument .builtin false = (.ok ids, m') ∧ m.Reloaded ids m' := by
  obtain ⟨ids, m', load, iso⟩ := hm.exists_load hs { name := m.name, graph := { nextId } }
  -- the stages of this load tell what the isomorphism does not
  obtain ⟨-, m₁, m₂, m₃, added, teleported, relinked, rooted⟩ :=
    Load.load_spec (Graph.Proper.empty nextId).counted load
  have frame : m₃ = { Load.before m.toDocument false { name := m.name, graph := { nextId } } with
      graph := m₃.graph } := by
    rw [relinked.frame, teleported.frame, added.frame]
  have empty : m₃.roots = {} := by
    rw [frame]
    rfl
  have last := Load.frame_addRoots rooted
  have graph : m'.graph = m₃.graph := by rw [last]
  refine ⟨ids, m', load, ?_⟩
  constructor
  case toIsomorphic => exact iso
  case known =>
    intro a y hy
    rw [graph, relinked.ids_eq, teleported.ids_eq]
    exact added.mem_ids (mem_map_of_mem (Load.mem_of_lookup hy))
  case kinds =>
    intro x b y c hb hy hc
    obtain ⟨y', k, hy', hk, made⟩ := added.made _ (hm.blockEntry_mem hb)
    rw [id_blockEntry hb] at hy'
    cases hy.symm.trans hy'
    refine ⟨k, Load.setFields?_of_kindOf hk, ?_⟩
    have here : y ∈ ids.map Prod.snd := mem_map_of_mem (Load.mem_of_lookup hy)
    have face := relinked.faces y
    rw [← graph, hc, teleported.get?, made, Option.map_some, Option.map_some, Option.map_some,
      if_pos here] at face
    exact congrArg Block.Face.kind (Option.some.inj face)
  case roots =>
    -- the roots can be added in the order of the document, and there is only one way to add them
    obtain ⟨n, rooted', roots⟩ := Load.exists_gives_addRoots hm (graph ▸ iso.copying) empty
    obtain rfl : m' = n := congrArg Prod.snd (rooted.symm.trans rooted')
    exact roots
  case optimizers =>
    rw [last, frame]
    rfl

/-! ## 3. Loaded graphs mirror saved ones -/

namespace Reloaded

variable (h : m.Reloaded ids m')
include h

theorem lookup_place (hx : x ∈ m.graph.ids) :
    ids.lookup x.index = some (ids.place m'.graph.nextId x) := by
  obtain ⟨b, hb⟩ := Graph.mem_ids_iff.mp hx
  obtain ⟨y, c, hy, -, -⟩ := h.blocks x b hb
  rw [hy, IdMap.place_of_lookup _ hy]

theorem injective (proper : m'.graph.Proper) : (ids.place m'.graph.nextId).Injective :=
  IdMap.injective_place h.inj fun a y hy => proper.numbered y (h.known a y hy)

variable (hm : m.Intact)
include hm

theorem source? (hy : ids.lookup x.index = some y) (i : Nat) :
    m'.graph.source? ⟨y, i⟩ =
      (m.graph.source? ⟨x, i⟩).map (SocketRef.relabel (ids.place m'.graph.nextId)) := by
  rw [h.links x y i hy]
  cases hs : m.graph.source? ⟨x, i⟩ with
  | none => rfl
  | some s =>
    obtain ⟨o, ho, -⟩ := hm.graph.coherent.exists_output hs
    obtain ⟨a, ha, -⟩ := output?_eq_some_iff.mp ho
    rw [Option.bind_some, h.lookup_place (Graph.mem_ids_iff.mpr ⟨a, ha⟩)]
    rfl

theorem feeds_iff (proper : m'.graph.Proper) (hy : ids.lookup x.index = some y) (i : Nat) :
    (∃ r, m'.graph.source? r = some ⟨y, i⟩) ↔ ∃ r, m.graph.source? r = some ⟨x, i⟩ := by
  constructor
  · rintro ⟨r, hr⟩
    obtain ⟨p, hp, -⟩ := source?_eq_some_iff.mp hr
    obtain ⟨c, hc, -⟩ := input?_eq_some_iff.mp hp
    obtain ⟨z, -, hz⟩ := h.onto r.block (Graph.mem_ids_iff.mpr ⟨c, hc⟩)
    have source := h.source? hm hz r.index
    rw [hr] at source
    obtain ⟨t, ht, same⟩ := Option.map_eq_some_iff.mp source.symm
    obtain ⟨block, rfl⟩ := SocketRef.mk.inj same
    rw [← IdMap.place_of_lookup m'.graph.nextId hy] at block
    exact ⟨⟨z, r.index⟩, by rw [ht, ← h.injective proper block]⟩
  · rintro ⟨r, hr⟩
    obtain ⟨p, hp, -⟩ := source?_eq_some_iff.mp hr
    obtain ⟨a, ha, -⟩ := input?_eq_some_iff.mp hp
    obtain ⟨z, c, hz, -, -⟩ := h.blocks r.block a ha
    refine ⟨⟨z, r.index⟩, ?_⟩
    rw [h.source? hm hz, hr, ← IdMap.place_of_lookup m'.graph.nextId hy]
    rfl

theorem inputs (hb : m.graph.get? x = some b) (hy : ids.lookup x.index = some y)
    (hc : m'.graph.get? y = some c) (copies : b.Copies ids c) :
    c.bare.inputs = b.bare.inputs.map (InputSocket.relabel (ids.place m'.graph.nextId)) := by
  refine ext_getElem? fun i => ?_
  have specs := congrArg (fun specs => specs[i]?) copies.inputs
  have links := h.source? hm hy i
  simp only [Graph.source?, Graph.input?, hb, hc, Option.bind_some] at links
  simp only [getElem?_map] at specs
  simp only [Block.bare, getElem?_map]
  cases hp : c.inputs[i]? with
  | none =>
    rw [hp] at specs
    rw [Option.map_eq_none_iff.mp specs.symm]
    rfl
  | some p =>
    rw [hp] at specs links
    obtain ⟨q, hq, spec⟩ := Option.map_eq_some_iff.mp specs.symm
    rw [hq] at links ⊢
    have link : p.link = q.link.map (SocketRef.relabel (ids.place m'.graph.nextId)) := links
    simp only [Option.map_some, InputSocket.reset, InputSocket.relabel, link, spec]

theorem outputs (proper : m'.graph.Proper) (hb : m.graph.get? x = some b)
    (hy : ids.lookup x.index = some y) (hc : m'.graph.get? y = some c) (copies : b.Copies ids c) :
    c.bare.outputs.map OutputSocket.view = b.bare.outputs.map OutputSocket.view := by
  refine ext_getElem? fun i => ?_
  have specs := congrArg (fun specs => specs[i]?) copies.outputs
  simp only [getElem?_map] at specs
  simp only [Block.bare, getElem?_map]
  cases hp : c.outputs[i]? with
  | none =>
    rw [hp] at specs
    rw [Option.map_eq_none_iff.mp specs.symm]
  | some p =>
    rw [hp] at specs
    obtain ⟨q, hq, spec⟩ := Option.map_eq_some_iff.mp specs.symm
    have connected : p.isConnected = q.isConnected := by
      rw [Bool.eq_iff_iff, proper.coherent.isConnected_iff
          (output?_eq_some_iff.mpr ⟨c, hc, hp⟩ : m'.graph.output? ⟨y, i⟩ = some p),
        hm.graph.coherent.isConnected_iff
          (output?_eq_some_iff.mpr ⟨b, hb, hq⟩ : m.graph.output? ⟨x, i⟩ = some q)]
      exact h.feeds_iff hm proper hy i
    rw [hq]
    simp only [Option.map_some, OutputSocket.view, OutputSocket.reset, spec]
    exact congrArg (fun connected => some (p.spec, "", connected)) connected

/-- A block and the one that was made for it are the same to a pass. -/
theorem block (hs : b.kind.Storable) (proper : m'.graph.Proper) (hb : m.graph.get? x = some b)
    (hy : ids.lookup x.index = some y) (hc : m'.graph.get? y = some c) (copies : b.Copies ids c) :
    b.bare.Mirrors (ids.place m'.graph.nextId) c.bare where
  id := by
    show c.id = ids.place m'.graph.nextId b.id
    rw [id_of_get? hb, id_of_get? hc, IdMap.place_of_lookup _ hy]
  name := copies.name
  kind := by
    obtain ⟨k, hk, kind⟩ := h.kinds x b y c hb hy hc
    show b.kind.bare.Mirrors _ c.kind.bare
    rw [kind]
    refine Kind.mirrors_resolved hs hk fun e he => h.lookup_place ?_
    have entry := hm.isEntry (origin?_eq_some_iff.mpr ⟨b, hb, he⟩)
    obtain ⟨a, ha, -⟩ := isEntry_iff.mp entry
    exact Graph.mem_ids_iff.mpr ⟨a, ha⟩
  inputs := h.inputs hm hb hy hc copies
  outputs := h.outputs hm proper hb hy hc copies

theorem ids_perm (proper : m'.graph.Proper) :
    m'.graph.ids.Perm (m.graph.ids.map (ids.place m'.graph.nextId)) := by
  have distinct := hm.graph.coherent.distinct.map (h.injective proper)
  refine (perm_ext_iff_of_nodup proper.coherent.distinct distinct).mpr fun y => ?_
  rw [mem_map]
  constructor
  · intro hy
    obtain ⟨x, hx, hxy⟩ := h.onto y hy
    exact ⟨x, hx, IdMap.place_of_lookup _ hxy⟩
  · rintro ⟨x, hx, rfl⟩
    exact h.known _ _ (h.lookup_place hx)

/-- The loaded graph mirrors the saved one. -/
theorem mirrors (hs : ∀ b ∈ m.graph.blocks, b.kind.Storable) (proper : m'.graph.Proper) :
    m.graph.bare.Mirrors (ids.place m'.graph.nextId) (fun _ => True) m'.graph.bare where
  blocks x _ := by
    rw [get?_bare, get?_bare]
    cases hb : m.graph.get? x with
    | none =>
      -- what was not saved goes where no block is
      have missing : ids.place m'.graph.nextId x ∉ m'.graph.ids := by
        intro here
        rw [(h.ids_perm hm proper).mem_iff,
          mem_map_of_injective (h.injective proper)] at here
        exact get?_eq_none_iff.mp hb here
      rw [get?_eq_none_iff.mpr missing]
      exact .none
    | some b =>
      obtain ⟨y, c, hy, hc, copies⟩ := h.blocks x b hb
      rw [IdMap.place_of_lookup _ hy, hc]
      exact .some (h.block hm (hs b (mem_of_get? hb)) proper hb hy hc copies)
  length := by
    have length := (h.ids_perm hm proper).length_eq
    simpa [Graph.ids, Graph.bare] using length
  absent _ _ := trivial

end Reloaded

/-! ## 4. The same roots, the same program -/

theorem Intact.nodup_roots (hm : m.Intact)
    (single : ∀ x ∈ m.roots.all, ∀ b, m.graph.get? x = some b → b.target ≠ .vertexAndFragment) :
    (m.roots.vertex ++ m.roots.fragment).Nodup := by
  refine nodup_append.mpr ⟨hm.rooted.distinct .vertex, hm.rooted.distinct .fragment, ?_⟩
  rintro x hv _ hf rfl
  obtain ⟨b, hb, staged⟩ := hm.rooted.staged x .vertex hv
  refine absurd ?_ (single x (mem_roots_all_iff.mpr ⟨.vertex, hv⟩) b hb)
  have vertex := (staged .vertex).mp hv
  have fragment := (staged .fragment).mp hf
  cases ht : b.target with
  | vertexAndFragment => rfl
  | vertex | fragment | neutral =>
    rw [ht] at vertex fragment
    revert vertex fragment
    decide

theorem Reloaded.roots_eq (h : m.Reloaded ids m') (hm : m.Intact)
    (distinct : (m.roots.vertex ++ m.roots.fragment).Nodup) :
    m'.roots = m.roots.relabel (ids.place m'.graph.nextId) := by
  have same : ∀ stage, m'.roots.of stage =
      (m.roots.of stage).map (ids.place m'.graph.nextId) := by
    intro stage
    refine map_injective_iff.mpr (Option.some_injective _) ?_
    rw [h.roots stage, Roots.filter_all distinct, map_map]
    refine map_congr_left fun x hx => ?_
    obtain ⟨b, hb, -⟩ := hm.rooted.staged x stage hx
    exact h.lookup_place (Graph.mem_ids_iff.mpr ⟨b, hb⟩)
  have vertex := same .vertex
  have fragment := same .fragment
  cases hr : m'.roots with
  | mk v f =>
    rw [hr] at vertex fragment
    exact congrArg₂ Roots.mk vertex fragment

/-- Without wishes the walks of a pass change leftovers only. -/
theorem bare_prepare (hg : m.graph.Proper) (off : m.options.autoConfigure = false) :
    m.prepare.state.graph.bare = m.graph.bare :=
  ((settles_firstWalk hg).trans (settles_prepare hg)).still off

/-- The pass of what was loaded repeats that of what was saved. -/
theorem Reloaded.twin (h : m.Reloaded ids m') (hm : m.Intact)
    (hs : ∀ b ∈ m.graph.blocks, b.kind.Storable) (proper : m'.graph.Proper)
    (off : m.options.autoConfigure = false)
    (distinct : (m.roots.vertex ++ m.roots.fragment).Nodup) :
    m.Twin (ids.place m'.graph.nextId) { m' with options := m.options } where
  injective := h.injective proper
  proper := proper
  plan := by
    rw [bare_prepare hm.graph off]
    exact h.mirrors hm hs proper
  content := by
    intro (on : m.options.autoConfigure = true)
    exact absurd on (by rw [off]; nofun)
  roots := h.roots_eq hm distinct
  mode := h.mode
  language := rfl
  comments := rfl

/-- A material compiles to the same program after it was saved and loaded. -/
theorem build_reloaded (hm : m.Crafted) (hs : ∀ b ∈ m.graph.blocks, b.kind.Storable)
    (unoptimized : m.optimizers = []) (off : m.options.autoConfigure = false)
    (single : ∀ x ∈ m.roots.all, ∀ b, m.graph.get? x = some b → b.target ≠ .vertexAndFragment)
    (nextId : Nat) :
    ∃ m', ofDocument m.toDocument .builtin nextId = (.ok m', m'.graph.nextId) ∧
      (∀ e, ({ m' with options := m.options } : Material).build.1 = .error e ↔
        m.build.1 = .error e) ∧
      ∀ c, m.build.1 = .ok c →
        ∃ c', ({ m' with options := m.options } : Material).build.1 = .ok c' ∧
          c'.template = c.template ∧ c'.vertex = c.vertex ∧ c'.fragment = c.fragment ∧
          c'.varyings = c.varyings ∧ c'.hints = c.hints ∧ c'.errors = c.errors := by
  have intact := hm.intact
  obtain ⟨ids, m', load, reloaded⟩ := intact.exists_reloaded hs nextId
  have proper : m'.graph.Proper := by
    have reachable := Reachable.load m.toDocument .builtin false (.new m.name {} nextId)
      fun _ _ created => forall_entry_of_free (Registry.teleportEntry_builtin created)
    rw [load] at reachable
    exact reachable.wellFormed.graph
  have distinct := intact.nodup_roots single
  have twin := reloaded.twin intact hs proper off distinct
  have optimized : ({ m' with options := m.options } : Material).optimized =
      m.optimized.relabel (ids.place m'.graph.nextId) := by
    simp only [Material.optimized, unoptimized, reloaded.optimizers, foldl_nil]
    exact reloaded.roots_eq intact distinct
  have planted := hm.reachable.planted
  have result := twin.build intact.graph hm.reachable.entered planted intact.modest optimized
    fun clear => exists_emission hm.reachable.wellFormed planted clear intact.not_lost
  refine ⟨m', ?_, fun e => ?_, fun c hc => ?_⟩
  · have start : m.toDocument.name = m.name := rfl
    rw [ofDocument, start, load]
    rfl
  · rw [result]
    cases m.build.1 <;> simp [Except.map]
  · rw [hc] at result
    exact ⟨_, result, rfl, rfl, rfl, rfl, rfl, rfl⟩

/-- The relay as a particle that is built without wishes. -/
def relayed : Material := { relay with mode := .particle, options := { autoConfigure := false } }

theorem relayed_build_reloaded :
    relayed.Crafted ∧ (∀ b ∈ relayed.graph.blocks, b.kind.Storable) ∧ relayed.optimizers = [] ∧
      relayed.options.autoConfigure = false ∧
      (∀ x ∈ relayed.roots.all, ∀ b, relayed.graph.get? x = some b →
        b.target ≠ .vertexAndFragment) ∧
      (∃ c, relayed.build.1 = .ok c) ∧
      ∃ m', ofDocument relayed.toDocument .builtin 6 = (.ok m', m'.graph.nextId) ∧
        (∀ e, ({ m' with options := relayed.options } : Material).build.1 = .error e ↔
          relayed.build.1 = .error e) ∧
        ∀ c, relayed.build.1 = .ok c →
          ∃ c', ({ m' with options := relayed.options } : Material).build.1 = .ok c' ∧
            c'.template = c.template ∧ c'.vertex = c.vertex ∧ c'.fragment = c.fragment ∧
            c'.varyings = c.varyings ∧ c'.hints = c.hints ∧ c'.errors = c.errors := by
  have crafted : relayed.Crafted := .tune crafted_relay rfl (Nat.le_refl _) rfl rfl
  have single : ∀ x ∈ relayed.roots.all, ∀ b, relayed.graph.get? x = some b →
      b.target ≠ .vertexAndFragment := by
    intro x hx b hb
    obtain rfl := mem_singleton.mp hx
    cases hb
    decide
  obtain ⟨c, m', h⟩ := exists_build_of_unrepeated crafted.reachable (by decide) (by decide)
    (by decide) crafted.intact.not_lost
  exact ⟨crafted, storable_relay, rfl, rfl, single, ⟨c, congrArg Prod.fst h⟩,
    build_reloaded crafted storable_relay rfl rfl single 6⟩

end Material

end ShaderGraph
