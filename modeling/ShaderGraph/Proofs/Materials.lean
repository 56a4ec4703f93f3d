import ShaderGraph.Document.Load
import ShaderGraph.Material.Preset
import ShaderGraph.Proofs.Passes

/-!
# Materials that the public operations make

`Material.Reachable` lists the operations. All of them keep the graph proper, also where they fail
halfway, so that what is known of a pass over a proper graph holds of every build. Loads and presets
are made of smaller steps; what these keep, they keep (`Material.Stable`).
-/

namespace ShaderGraph

open List ShaderGraph.Graph Option Load

/-! ## 1. Settings of blocks -/

/-- A block after its name, its comments or the settings of its kind were changed. -/
structure Block.Configured (b b' : Block) : Prop where
  id : b'.id = b.id
  inputs : b'.inputs = b.inputs
  outputs : b'.outputs = b.outputs
  traits : b'.kind.traits = b.kind.traits
  entry : b'.kind.teleportEntry = b.kind.teleportEntry

/-- A block after a change that touches nothing its kind declares: neither sockets nor stages. -/
structure Block.Adjusted (b b' : Block) : Prop extends Block.Configured b b' where
  declared : b'.kind.outputs = b.kind.outputs
  target : b'.kind.target = b.kind.target

/-- Fields read from a document set no teleport entry. -/
theorem Kind.setFields?_keeps {k k' : Kind} {fields : List (String × Json)}
    (h : k.setFields? fields = some k') :
    k'.traits = k.traits ∧ k'.teleportEntry = k.teleportEntry := by
  cases k with
  | teleportOut t =>
    obtain ⟨t', ht, rfl⟩ := map_eq_some_iff.mp h
    obtain ⟨pending, -, hp⟩ := bind_eq_some_iff.mp ht
    cases hp
    exact ⟨rfl, rfl⟩
  | input _ | transform _ | fragmentOutput _ | clamp _ | texture _ =>
    obtain ⟨t', -, rfl⟩ := map_eq_some_iff.mp h
    exact ⟨rfl, rfl⟩
  | _ =>
    cases h
    exact ⟨rfl, rfl⟩

theorem Block.adjusted_takePending (b : Block) :
    b.Adjusted { b with kind := b.kind.takePending.2 } := by
  cases hk : b.kind <;> exact ⟨⟨rfl, rfl, rfl, by rw [hk]; rfl, by rw [hk]; rfl⟩,
    by rw [hk]; rfl, by rw [hk]; rfl⟩

namespace Graph

variable {g g' : Graph} {id x : BlockId} {f : Block → Block}

section

variable (h : ∀ b : Block, b.Configured (f b))
include h

theorem source?_configure (r : SocketRef) : (g.modify id f).source? r = g.source? r :=
  source?_modify r (fun b => (h b).id) fun b => (h b).inputs

theorem origin?_configure (x : BlockId) : (g.modify id f).origin? x = g.origin? x :=
  origin?_congr (map_get?_modify g id (fun b => (h b).id) (fun b => (h b).entry) x)

theorem isEntry_configure (x : BlockId) : (g.modify id f).isEntry x = g.isEntry x :=
  isEntry_congr (map_get?_modify g id (fun b => (h b).id)
    (fun b => congrArg Kind.Traits.isTeleportIn (h b).traits) x)

theorem upstream_configure : (g.modify id f).Upstream = g.Upstream := by
  unfold Upstream
  simp only [origin?_configure h, source?_configure h, ids_modify g id f fun b => (h b).id]

end

theorem Proper.configure (hg : g.Proper) (h : ∀ b : Block, b.Configured (f b)) :
    (g.modify id f).Proper where
  coherent := hg.coherent.of_views (ids_modify g id f fun b => (h b).id) (source?_configure h)
    (fun s => endpoints_modify s (fun b => (h b).id) fun b => (h b).outputs)
  acyclic := by
    unfold Acyclic
    rw [upstream_configure h]
    exact hg.acyclic
  fitted x b hb := by
    rw [get?_modify g id fun b => (h b).id] at hb
    split at hb
    · obtain ⟨c, hc, rfl⟩ := map_eq_some_iff.mp hb
      have fitted := hg.fitted x c hc
      constructor
      · rw [(h c).inputs, fitted.inputs]
        exact (congrArg Kind.Traits.inputs (h c).traits).symm
      · rw [(h c).outputs, fitted.outputs]
        exact (congrArg Kind.Traits.outputs (h c).traits).symm
    · exact hg.fitted x b hb
  numbered := by
    rw [ids_modify g id f fun b => (h b).id]
    exact hg.numbered
  handed x e he := hg.handed x e (by rwa [origin?_configure h] at he)

theorem Loose.of_configure (h : ∀ b : Block, b.Configured (f b)) {x e : BlockId}
    (loose : (g.modify id f).Loose x e) : g.Loose x e := by
  rwa [Loose, origin?_configure h, isEntry_configure h] at loose

theorem Entered.configure (hg : g.Entered) (h : ∀ b : Block, b.Configured (f b)) :
    (g.modify id f).Entered :=
  hg.of_loose (fun there => ids_modify g id f (fun b => (h b).id) ▸ there) (Loose.of_configure h)

/-- A condition on the entries that new blocks name which lasts while blocks are added and
configured, and when the graph is cleared. -/
structure Lasting (names : Graph → BlockId → Prop) : Prop where
  insert : ∀ {g e} (name : String) (kind : Kind), names g e → names (g.insert name kind) e
  configure : ∀ {g e} (id : BlockId) {f : Block → Block}, (∀ b : Block, b.Configured (f b)) →
    names g e → names (g.modify id f) e
  clear : ∀ {g e}, names g e → names { nextId := g.nextId } e

theorem lasting_handed : Lasting Handed where
  insert _ _ handed := Nat.lt_succ_of_lt handed
  configure _ _ _ handed := handed
  clear handed := handed

theorem lasting_recalls : Lasting Recalls where
  insert name kind recalls := by
    refine ⟨Nat.lt_succ_of_lt recalls.1, fun there => isEntry_insert name kind (recalls.2 ?_)⟩
    rw [ids_insert, mem_append, mem_singleton] at there
    exact there.resolve_right fun same => Nat.lt_irrefl _ (same ▸ recalls.1)
  configure id f h recalls := by
    unfold Recalls
    rw [ids_modify _ id f fun b => (h b).id, isEntry_configure h]
    exact recalls
  clear recalls := ⟨recalls.1, fun there => nomatch there⟩

end Graph

/-! ## 2. What loads and presets keep -/

/-- Materials with the same passes behind them: their number, the result of the last one and the
programs made of it. -/
structure Material.SamePasses (m m' : Material) : Prop where
  pass : m'.pass = m.pass
  compiled : m'.compiled = m.compiled
  cache : m'.cache = m.cache

/-- A property that the steps of a load and of a preset keep, given a condition on the entries that
new blocks name. -/
structure Material.Stable (names : Graph → BlockId → Prop) (P : Material → Prop) : Prop where
  lasting : Lasting names
  addBlock : ∀ {m : Material} (name : String) {kind : Kind}, P m →
    (∀ e ∈ kind.teleportEntry, names m.graph e) → P (m.addBlock name kind)
  connect : ∀ {m : Material} {s t : SocketRef} {graph : Graph}, P m →
    m.graph.connect s t = .ok graph → P { m with graph }
  setTeleportEntry : ∀ {m : Material} {out : BlockId} {entry : Option BlockId} {graph : Graph},
    P m → m.graph.setTeleportEntry out entry = .ok graph → P { m with graph }
  addRoot : ∀ {m m' : Material} {id : BlockId}, P m → m.addRoot id = .ok m' → P m'
  adjust : ∀ {m : Material} (id : BlockId) {f : Block → Block}, P m →
    (∀ b : Block, b.Adjusted (f b)) → P { m with graph := m.graph.modify id f }
  clear : ∀ {m : Material}, P m → P m.clear
  tune : ∀ {m m' : Material}, P m → m'.graph = m.graph → m'.roots = m.roots →
    m'.attached = m.attached → m'.optimizers = m.optimizers → m.SamePasses m' → P m'

namespace Load

variable {α β : Type} {P : Material → Prop}

/-- A part of a load keeps a property, whether or not it fails. -/
def Keeps (P : Material → Prop) (l : Load α) : Prop := ∀ m, P m → P (l.run.run m).2

theorem keeps_pure (a : α) : Keeps P (pure a : Load α) := fun _ hm => hm

theorem keeps_throw (e : LoadError) : Keeps P (throw e : Load α) := fun _ hm => hm

theorem keeps_set {m : Material} (h : P m) : Keeps P (set m : Load PUnit) := fun _ _ => h

/-- What comes first may keep more than what follows. -/
theorem Keeps.bind_of {Q : Material → Prop} {l : Load α} {next : α → Load β} (hl : Keeps Q l)
    (sub : ∀ m, Q m → P m) (hnext : ∀ a, Keeps P (next a)) {m : Material} (hm : Q m) :
    P ((l >>= next).run.run m).2 := by
  have first := hl m hm
  rw [ExceptT.run_bind, StateT.run_bind]
  cases hr : l.run.run m with
  | mk result m' =>
    rw [hr] at first
    cases result with
    | error e => exact sub m' first
    | ok a => exact hnext a m' (sub m' first)

theorem Keeps.bind {l : Load α} {next : α → Load β} (hl : Keeps P l)
    (hnext : ∀ a, Keeps P (next a)) : Keeps P (l >>= next) :=
  fun _ hm => hl.bind_of (fun _ => id) hnext hm

theorem keeps_get {next : Material → Load β}
    (h : ∀ m, P m → P ((next m).run.run m).2) : Keeps P (get >>= next) := fun m hm => h m hm

theorem keeps_onGraph {wrap : GraphError → LoadError} {f : Graph → Except GraphError Graph}
    (h : ∀ m g, P m → f m.graph = .ok g → P { m with graph := g }) : Keeps P (onGraph wrap f) := by
  refine keeps_get fun m hm => ?_
  cases hf : f m.graph with
  | error e => exact hm
  | ok g => exact h m g hm hf

theorem keeps_forM {items : List α} {f : α → Load PUnit} (h : ∀ a, Keeps P (f a)) :
    Keeps P (items.forM f) := by
  induction items with
  | nil => exact keeps_pure _
  | cons a rest ih => exact (h a).bind fun _ => ih

theorem keeps_mapM {items : List α} {f : α → Load β} (h : ∀ a, Keeps P (f a)) :
    Keeps P (items.mapM f) := by
  induction items with
  | nil => exact keeps_pure _
  | cons a rest ih =>
    rw [mapM_cons]
    exact (h a).bind fun b => ih.bind fun bs => keeps_pure _

theorem kindOf_eq_ok_iff {r : Registry} {b : BlockEntry} {kind : Kind} : kindOf r b = .ok kind ↔
    ∃ made, r.create b.tag = .ok made ∧ made.setFields? b.fields = some kind := by
  unfold kindOf
  cases r.create b.tag with
  | error e => simp
  | ok made => cases hset : made.setFields? b.fields <;> simp [hset]

theorem entry_of_kindOf {r : Registry} {b : BlockEntry} {kind : Kind} (h : kindOf r b = .ok kind) :
    ∃ made, r.create b.tag = .ok made ∧ kind.teleportEntry = made.teleportEntry := by
  obtain ⟨made, hmade, set⟩ := kindOf_eq_ok_iff.mp h
  exact ⟨made, hmade, (Kind.setFields?_keeps set).2⟩

theorem keeps_addBlock {r : Registry} (b : BlockEntry)
    (h : ∀ (m : Material) kind, P m → kindOf r b = .ok kind → P { m with
      graph := (m.graph.insert b.name kind).modify m.graph.freshId
        ({ · with comments := b.comments }) }) : Keeps P (addBlock r b) := by
  unfold addBlock
  cases hk : kindOf r b with
  | error e => exact keeps_throw _
  | ok kind => exact fun m hm => h m kind hm hk

section

variable {ids : IdMap}

theorem keeps_restoreTeleport (b : BlockEntry)
    (take : ∀ (m : Material) x, P m → ids.lookup b.id = some x →
      P { m with graph := m.graph.modify x fun b => { b with kind := b.kind.takePending.2 } })
    (enter : ∀ (m : Material) x n y g, P m → ids.lookup b.id = some x → ids.lookup n = some y →
      m.graph.setTeleportEntry x (some y) = .ok g → P { m with graph := g }) :
    Keeps P (restoreTeleport ids b) := by
  unfold restoreTeleport
  cases hx : ids.lookup b.id with
  | none => exact keeps_pure _
  | some x =>
    refine keeps_get fun m hm => (keeps_set (take m x hm hx)).bind (fun _ => ?_) m hm
    split
    · exact keeps_pure _
    · split
      · exact keeps_throw _
      · rename_i y hy
        exact keeps_onGraph fun m g hm => enter m x _ y g hm hx hy

theorem keeps_restoreLink (consumer : BlockEntry) (l : LinkEntry)
    (link : ∀ (m : Material) source target g, P m → ids.lookup l.target = some source →
      ids.lookup consumer.id = some target →
      m.graph.connectNamed source l.output target l.input = .ok g → P { m with graph := g }) :
    Keeps P (restoreLink ids consumer l) := by
  unfold restoreLink
  split
  · rename_i source target hsource htarget
    exact keeps_onGraph fun m g hm => link m source target g hm hsource htarget
  · exact keeps_pure _

theorem keeps_addRoot (output : Nat)
    (root : ∀ (m m' : Material) x, P m → m.addRoot x = .ok m' → P m') :
    Keeps P (addRoot ids output) := by
  unfold addRoot
  cases ids.lookup output with
  | none => exact keeps_pure _
  | some x =>
    refine keeps_get fun m hm => ?_
    cases h : m.addRoot x with
    | error e => exact keeps_throw _ m hm
    | ok m' => exact keeps_set (root m m' x hm h) m hm

/-- What follows the adding of the blocks. -/
theorem keeps_restore (d : Document) (merge : Bool)
    (teleport : ∀ b, Keeps P (restoreTeleport ids b))
    (link : ∀ consumer l, Keeps P (restoreLink ids consumer l))
    (root : ∀ (m m' : Material) x, P m → m.addRoot x = .ok m' → P m') :
    Keeps P (do
      d.blocks.forM (restoreTeleport ids)
      (d.restoreOrder merge).forM fun consumer => consumer.links.forM (restoreLink ids consumer)
      d.outputs.forM (addRoot ids)
      return ids) := by
  refine (keeps_forM teleport).bind fun _ => ?_
  refine (keeps_forM fun consumer => keeps_forM (link consumer)).bind fun _ => ?_
  exact (keeps_forM fun output => keeps_addRoot output root).bind fun _ => keeps_pure _

end

end Load

namespace Material.Stable

variable {names : Graph → BlockId → Prop} {P : Material → Prop} (hP : Stable names P)
  {m m' : Material} {r : Registry}
include hP

theorem connectNamed {source target : BlockId} {output input : String} {graph : Graph} (hm : P m)
    (h : m.graph.connectNamed source output target input = .ok graph) : P { m with graph } := by
  obtain ⟨i, j, h⟩ := connectNamed_eq_ok h
  exact hP.connect hm h

theorem load (d : Document) (merge : Bool) (hm : P m)
    (named : ∀ tag kind, r.create tag = .ok kind → ∀ e ∈ kind.teleportEntry, names m.graph e) :
    P (m.load d r merge).2 := by
  -- what is asked of the entries lasts while the blocks are added
  let Q (m : Material) := P m ∧
    ∀ tag kind, r.create tag = .ok kind → ∀ e ∈ kind.teleportEntry, names m.graph e
  have blocks : Load.Keeps Q (d.blocks.mapM (Load.addBlock r)) :=
    keeps_mapM fun b => keeps_addBlock b fun m kind ⟨hm, named⟩ hk => by
      obtain ⟨made, hmade, entry⟩ := entry_of_kindOf hk
      refine ⟨hP.adjust _ (hP.addBlock b.name hm (entry ▸ named b.tag made hmade))
        fun c => ⟨⟨rfl, rfl, rfl, rfl, rfl⟩, rfl, rfl⟩, ?_⟩
      exact fun tag kind' created e held => hP.lasting.configure _
        (fun c => ⟨rfl, rfl, rfl, rfl, rfl⟩) (hP.lasting.insert b.name kind
          (named tag kind' created e held))
  have rest {m : Material} (hm : Q m) : P ((do
      let ids ← d.blocks.mapM (Load.addBlock r)
      d.blocks.forM (Load.restoreTeleport ids)
      (d.restoreOrder merge).forM fun consumer =>
        consumer.links.forM (Load.restoreLink ids consumer)
      d.outputs.forM (Load.addRoot ids)
      return ids : Load IdMap).run.run m).2 :=
    blocks.bind_of (fun _ => And.left) (fun ids => keeps_restore d merge
      (fun b => keeps_restoreTeleport b
        (fun m x hm _ => hP.adjust x hm Block.adjusted_takePending)
        fun m x n y g hm _ _ h => hP.setTeleportEntry hm h)
      (fun consumer l => keeps_restoreLink consumer l fun m _ _ g hm _ _ h => hP.connectNamed hm h)
      fun m m' x hm h => hP.addRoot hm h) hm
  unfold Material.load Document.loader
  cases d.fault? with
  | some fault => exact hm
  | none =>
    cases merge with
    | true => exact rest ⟨hm, named⟩
    | false =>
      refine rest ⟨hP.tune (hP.clear hm) rfl rfl rfl rfl ⟨rfl, rfl, rfl⟩, ?_⟩
      exact fun tag kind created e held => hP.lasting.clear (named tag kind created e held)

omit hP in
theorem foldlM_ok {ε α β : Type} {P : β → Prop} {step : β → α → Except ε β}
    (kept : ∀ y a y', P y → step y a = .ok y' → P y') {items : List α} {y y' : β} (hy : P y)
    (h : items.foldlM step y = .ok y') : P y' := by
  induction items generalizing y with
  | nil =>
    cases h
    exact hy
  | cons a rest ih =>
    obtain ⟨y₁, h₁, h⟩ := bind_eq_ok_iff.mp h
    exact ih (kept y a y₁ hy h₁) h

theorem install {p : Preset} (hm : P m) (free : ∀ block ∈ p.blocks, block.2.teleportEntry = none)
    (h : m.install p = .ok m') : P m' := by
  obtain ⟨g, hg, h⟩ := bind_eq_ok_iff.mp h
  have inserted : ∀ (blocks : List (String × Kind)) (m : Material), P m →
      (∀ block ∈ blocks, block.2.teleportEntry = none) →
      P { m with graph := blocks.foldl (fun g block => g.insert block.1 block.2) m.graph } := by
    intro blocks
    induction blocks with
    | nil => exact fun m hm _ => hm
    | cons block rest ih =>
      intro m hm free
      exact ih (m.addBlock block.1 block.2)
        (hP.addBlock block.1 hm (forall_entry_of_free (free block mem_cons_self)))
        fun b hb => free b (mem_cons_of_mem _ hb)
  have linked : P { m with graph := g } := by
    refine foldlM_ok (P := fun g => P { m with graph := g }) (fun g link g' hg h => ?_)
      (inserted p.blocks m hm free) hg
    exact hP.connectNamed (m := { m with graph := g }) hg h
  exact foldlM_ok (fun m name m' hm h => hP.addRoot hm h) linked h

theorem setToDefault {mode : Mode} (hm : P m) (h : m.setToDefault mode = .ok m') : P m' := by
  have cleared : P { m.clear with mode } := hP.tune (hP.clear hm) rfl rfl rfl rfl ⟨rfl, rfl, rfl⟩
  refine hP.install cleared ?_ h
  cases mode <;> decide

end Material.Stable

/-! ## 3. Well-formed materials -/

namespace Material

variable {m m' : Material} {id : BlockId}

/-- The graph is proper, and optimizers keep to the roots that they are given. -/
structure WellFormed (m : Material) : Prop where
  graph : m.graph.Proper
  modest : ∀ o ∈ m.optimizers, o.Modest

theorem addRoot_eq_ok_iff : m.addRoot id = .ok m' ↔ ∃ b, m.graph.get? id = some b ∧
    (b.target.includes .vertex || b.target.includes .fragment) = true ∧
      m' = { m with roots := m.roots.add b.target id } := by
  unfold addRoot
  constructor
  · intro h
    obtain ⟨b, hb, h⟩ := bind_eq_ok_iff.mp h
    split at h
    · rename_i staged
      exact ⟨b, find_eq_ok_iff.mp hb, staged, (Except.ok.inj h).symm⟩
    · cases h
  · rintro ⟨b, hb, staged, rfl⟩
    simp only [find_of_get? hb, Bind.bind, Except.bind, staged, if_true]
    rfl

namespace WellFormed

theorem addRoot (hm : m.WellFormed) (h : m.addRoot id = .ok m') : m'.WellFormed := by
  obtain ⟨b, -, -, rfl⟩ := addRoot_eq_ok_iff.mp h
  exact ⟨hm.graph, hm.modest⟩

theorem clear (hm : m.WellFormed) : m.clear.WellFormed := ⟨.empty m.graph.nextId, hm.modest⟩

theorem stable : Stable Handed WellFormed where
  lasting := lasting_handed
  addBlock name _ hm known := ⟨hm.graph.insert name known, hm.modest⟩
  connect hm h := ⟨hm.graph.connect h, hm.modest⟩
  setTeleportEntry hm h := ⟨hm.graph.setTeleportEntry h, hm.modest⟩
  addRoot hm h := hm.addRoot h
  adjust _ _ hm h := ⟨hm.graph.configure fun b => (h b).toConfigured, hm.modest⟩
  clear hm := hm.clear
  tune hm graph _ _ optimizers _ := ⟨graph ▸ hm.graph, optimizers ▸ hm.modest⟩

theorem removeBlock (hm : m.WellFormed) (id : BlockId) : (m.removeBlock id).1.WellFormed :=
  ⟨hm.graph.remove id, hm.modest⟩

theorem build (hm : m.WellFormed) : m.build.2.WellFormed where
  graph := (extends_build hm.graph).proper
  modest := by
    rw [(graph_build m).2.1]
    exact hm.modest

end WellFormed

end Material

/-! ## 4. Reachable materials -/

def Graph.connectAll (g : Graph) (pairs : List (SocketRef × SocketRef)) : Except GraphError Graph :=
  pairs.foldlM (fun g (s, t) => g.connect s t) g

theorem Graph.connectAll_induction {P : Graph → Prop}
    (step : ∀ {g g' s t}, P g → g.connect s t = .ok g' → P g') {g g' : Graph} (hg : P g)
    {pairs : List (SocketRef × SocketRef)} (h : g.connectAll pairs = .ok g') : P g' := by
  induction pairs generalizing g with
  | nil => cases h; exact hg
  | cons pair rest ih =>
    obtain ⟨g₁, first, others⟩ := bind_eq_ok_iff.mp h
    exact ih (step hg first) others

namespace Material

variable {m m' : Material} {c : CompiledGraph}

/-- The materials that the public operations make. An operation on blocks that is refused leaves the
material as it is; a load and a build that fail leave what they have done up to that point. The kind
of a new block may name an entry from the start, as that of a block that was removed does.
Optimizers are modest. -/
inductive Reachable : Material → Prop
  | new (name : String) (options : Options) (nextId : Nat) :
      Reachable { name, options, graph := { nextId } }
  | addBlock {m : Material} (name : String) (kind : Kind) : Reachable m →
      (∀ e ∈ kind.teleportEntry, m.graph.Recalls e) → Reachable (m.addBlock name kind)
  | connect {m : Material} {source target : SocketRef} {graph : Graph} :
      Reachable m → m.graph.connect source target = .ok graph → Reachable { m with graph }
  | disconnect {m : Material} {target : SocketRef} {graph : Graph} :
      Reachable m → m.graph.disconnect target = .ok graph → Reachable { m with graph }
  | setTeleportEntry {m : Material} {out : BlockId} {entry : Option BlockId} {graph : Graph} :
      Reachable m → m.graph.setTeleportEntry out entry = .ok graph → Reachable { m with graph }
  | addRoot {m m' : Material} {id : BlockId} :
      Reachable m → m.addRoot id = .ok m' → Reachable m'
  | removeRoot {m : Material} (id : BlockId) : Reachable m → Reachable (m.removeRoot id)
  | removeBlock {m : Material} (id : BlockId) : Reachable m → Reachable (m.removeBlock id).1
  | clear {m : Material} : Reachable m → Reachable m.clear
  | dispose {m : Material} : Reachable m → Reachable m.dispose
  | setToDefault {m m' : Material} {mode : Mode} :
      Reachable m → m.setToDefault mode = .ok m' → Reachable m'
  | load {m : Material} (d : Document) (r : Registry) (merge : Bool) : Reachable m →
      (∀ tag kind, r.create tag = .ok kind → ∀ e ∈ kind.teleportEntry, m.graph.Recalls e) →
      Reachable (m.load d r merge).2
  | build {m : Material} : Reachable m → Reachable m.build.2
  | addOptimizer {m : Material} (o : Optimizer) : Reachable m → o.Modest →
      Reachable { m with optimizers := m.optimizers ++ [o] }
  /-- The name, the comments and the settings of a block are written. -/
  | configure {m : Material} (id : BlockId) (f : Block → Block) : Reachable m →
      (∀ b : Block, b.Configured (f b)) → Reachable { m with graph := m.graph.modify id f }
  /-- Whatever else is written, by hand or by a check for readiness. Identities are counted for all
  materials together, so that the counter may run ahead. -/
  | tune {m m' : Material} : Reachable m → m'.graph.blocks = m.graph.blocks →
      m.graph.nextId ≤ m'.graph.nextId → m'.roots = m.roots → m'.optimizers = m.optimizers →
      Reachable m'

theorem Reachable.connectAll (hm : m.Reachable) (pairs : List (SocketRef × SocketRef)) (g : Graph)
    (h : m.graph.connectAll pairs = .ok g) : Reachable { m with graph := g } :=
  connectAll_induction (P := fun graph => Reachable { m with graph })
    (fun hm h => hm.connect h) hm h

theorem stable_entered : Stable Recalls fun m => m.WellFormed ∧ m.graph.Entered where
  lasting := lasting_recalls
  addBlock name _ hm recalls :=
    ⟨WellFormed.stable.addBlock name hm.1 fun e held => (recalls e held).1,
      hm.1.graph.entered_insert hm.2 name recalls⟩
  connect hm h := ⟨WellFormed.stable.connect hm.1 h, hm.2.connect h⟩
  setTeleportEntry hm h := ⟨WellFormed.stable.setTeleportEntry hm.1 h, hm.2.setTeleportEntry h⟩
  addRoot hm h := by
    obtain ⟨b, -, -, rfl⟩ := addRoot_eq_ok_iff.mp h
    exact ⟨⟨hm.1.graph, hm.1.modest⟩, hm.2⟩
  adjust id _ hm h :=
    ⟨WellFormed.stable.adjust id hm.1 h, hm.2.configure fun b => (h b).toConfigured⟩
  clear hm := ⟨hm.1.clear, fun _ _ h => nomatch h.1⟩
  tune hm graph _ _ optimizers _ :=
    ⟨⟨graph ▸ hm.1.graph, optimizers ▸ hm.1.modest⟩, graph ▸ hm.2⟩

/-- A reachable material is well-formed, and what a teleport names is an entry, or is gone. -/
theorem Reachable.wellFormed_entered (hm : m.Reachable) : m.WellFormed ∧ m.graph.Entered := by
  induction hm with
  | new name options nextId => exact ⟨⟨.empty nextId, nofun⟩, fun _ _ h => nomatch h.1⟩
  | addBlock name kind _ recalls ih => exact stable_entered.addBlock name ih recalls
  | connect _ h ih => exact stable_entered.connect ih h
  | disconnect _ h ih => exact ⟨⟨ih.1.graph.disconnect h, ih.1.modest⟩, ih.2.disconnect h⟩
  | setTeleportEntry _ h ih => exact stable_entered.setTeleportEntry ih h
  | addRoot _ h ih => exact stable_entered.addRoot ih h
  | removeRoot id _ ih => exact ⟨⟨ih.1.graph, ih.1.modest⟩, ih.2⟩
  | removeBlock id _ ih => exact ⟨ih.1.removeBlock id, ih.2.remove id⟩
  | clear _ ih => exact stable_entered.clear ih
  | dispose _ ih => exact ⟨⟨.empty _, ih.1.modest⟩, fun _ _ h => nomatch h.1⟩
  | setToDefault _ h ih => exact stable_entered.setToDefault ih h
  | load d r merge _ recalls ih => exact stable_entered.load d merge ih recalls
  | build _ ih => exact ⟨ih.1.build, (extends_build ih.1.graph).entered ih.2⟩
  | addOptimizer o _ modest ih =>
    refine ⟨⟨ih.1.graph, fun o' ho' => ?_⟩, ih.2⟩
    rcases mem_append.mp ho' with ho' | ho'
    · exact ih.1.modest o' ho'
    · exact mem_singleton.mp ho' ▸ modest
  | configure id f _ h ih => exact ⟨⟨ih.1.graph.configure h, ih.1.modest⟩, ih.2.configure h⟩
  | @tune m m' _ blocks counter _ optimizers ih =>
    have outlines : m'.graph.outlines = m.graph.outlines := by rw [Graph.outlines, blocks]; rfl
    exact ⟨⟨ih.1.graph.of_outlines outlines counter, optimizers ▸ ih.1.modest⟩,
      ih.2.of_outlines outlines⟩

theorem Reachable.wellFormed (hm : m.Reachable) : m.WellFormed := hm.wellFormed_entered.1

theorem Reachable.entered (hm : m.Reachable) : m.graph.Entered := hm.wellFormed_entered.2

/-- Every block that a build without problems calls is given symbols that exist in the stage of the
call. -/
theorem build_reads_existing_symbols (hm : m.Reachable) (hfog : m.FogApart)
    (h : m.build = (.ok c, m')) (clean : c.errors = []) :
    ∃ e, m.emission = .ok e ∧ finish { m with pass := m.pass.next } e = .ok c ∧
      m'.graph = e.graph ∧
      ∀ before call after, e.calls = before ++ call :: after → c.CallRefers e before call := by
  obtain ⟨hfault, e, he, hc, hgraph⟩ := build_eq_ok h
  have hw := hm.wellFormed
  obtain ⟨sound, filled, worded⟩ := emission_sound hw.graph hm.entered hw.modest hfog hfault he
  refine ⟨e, he, hc, hgraph, fun before call after heq => ?_⟩
  exact callRefers_of_callSound hc clean filled worded (sound before call after heq)

/-- An attribute and the output of a particle, not connected yet. -/
def loose : Material :=
  let start : Material := { name := "tint", mode := .particle }
  { (start.addBlock "color" (.input (.ofAttribute "color" .color4))).addBlock "out"
      (.fragmentOutput {}) with
    roots := ⟨[], [⟨2⟩]⟩ }

/-- A particle in the color of an attribute. -/
def tint : Material := { loose with graph := loose.graph.link ⟨⟨1⟩, 0⟩ ⟨⟨2⟩, 0⟩ }

theorem connect_loose : loose.graph.connect ⟨⟨1⟩, 0⟩ ⟨⟨2⟩, 0⟩ = .ok tint.graph := by cbv

theorem reachable_loose : loose.Reachable := by
  have start : Reachable { name := "tint", mode := .particle } :=
    .tune (.new "tint" {} 1) rfl (Nat.le_refl _) rfl rfl
  exact .addRoot (.addBlock "out" (.fragmentOutput {})
    (.addBlock "color" (.input (.ofAttribute "color" .color4)) start nofun) nofun)
    (show addRoot _ ⟨2⟩ = .ok loose from rfl)

theorem reachable_tint : tint.Reachable := .connect reachable_loose connect_loose

/-- Both ends of a teleport are added. -/
def beamed (m : Material) : Material :=
  (m.addBlock "in" .teleportIn).addBlock "exit" (.teleportOut {})

/-- A teleport comes, and goes again, its exit before its entry. Then the exit that was removed is
added once more, with the entry that it still names. -/
def returned (m : Material) : Material :=
  let entry := m.graph.freshId
  let exit : BlockId := ⟨entry.index + 1⟩
  let joined := { m.beamed with graph := m.beamed.graph.withEntry exit (some entry) }
  ((joined.removeBlock exit).1.removeBlock entry).1.addBlock "exit"
    (.teleportOut { entry := some entry })

/-- An exit without an entry feeds the color of an output. -/
def stray (m : Material) (out : BlockId) : Material :=
  { m.returned with
    graph := m.returned.graph.link ⟨⟨m.graph.freshId.index + 2⟩, 0⟩ ⟨out, 1⟩ }

theorem fogApart_of_noFog (noFog : ∀ b ∈ m.graph.blocks, b.kind.isFog = false) : m.FogApart := by
  constructor
  · intro y b hb hfog
    rw [noFog b (mem_of_get? hb)] at hfog
    cases hfog
  · intro x y b _ hb hfog
    rw [noFog b (mem_of_get? hb)] at hfog
    cases hfog

theorem fogApart_tint : tint.FogApart := fogApart_of_noFog (by decide)

theorem exists_build (h : (m.build.1.toOption.any fun c => c.errors.isEmpty) = true) :
    ∃ c m', m.build = (.ok c, m') ∧ c.errors = [] := by
  obtain ⟨c, hc, clean⟩ := exists_ok_of_any h
  exact ⟨c, m.build.2, Prod.ext hc rfl, isEmpty_iff.mp clean⟩

/-- The error of a result, if it is one. -/
def failure : Except MaterialError CompiledGraph → Option MaterialError
  | .ok _ => none
  | .error fault => some fault

theorem tint_reads_existing_symbols :
    tint.Reachable ∧ tint.FogApart ∧ ∃ c m', tint.build = (.ok c, m') ∧ c.errors = [] ∧
      ∃ e, tint.emission = .ok e ∧ finish { tint with pass := tint.pass.next } e = .ok c ∧
        m'.graph = e.graph ∧
        ∀ before call after, e.calls = before ++ call :: after → c.CallRefers e before call := by
  obtain ⟨c, m', h, clean⟩ := exists_build (m := tint) (by decide +kernel)
  exact ⟨reachable_tint, fogApart_tint, c, m', h, clean,
    build_reads_existing_symbols reachable_tint fogApart_tint h clean⟩

end Material

end ShaderGraph
