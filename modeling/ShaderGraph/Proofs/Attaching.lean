import ShaderGraph.Proofs.Rebuilding

/-!
# What a pass attaches

The walks of a pass attach the blocks that they meet, in the order in which they first meet them.
They are recursive, they change the graph while they go through it, and the second one starts with
what the first one has attached. All the same, a pass without a fault attaches what the search
`Graph.gather` lists in the graph that comes of it, in the order of the search
(`Material.attached_prepare`). As for `Preparation.Retraces`, the walk is compared with what the
graph will be.

A pass ends with a fault exactly if two blocks of one unique class are behind the roots
(`Material.Repeats`).
-/

namespace ShaderGraph

open Relation List ShaderGraph.Graph Search

/-! ## 1. The search -/

namespace Search

variable {α : Type} [DecidableEq α] {all seen todo rest : List α} {next : α → List α} {n : α}

theorem preorder_of_seen (h : n ∈ all → n ∈ seen) :
    preorder all next seen (n :: rest) = preorder all next seen rest := by
  rw [preorder, dif_neg fun here => here.2 (h here.1)]

theorem preorder_of_subset (h : ∀ x ∈ todo, x ∈ all → x ∈ seen) :
    preorder all next seen (todo ++ rest) = preorder all next seen rest := by
  induction todo with
  | nil => rfl
  | cons n todo ih =>
    rw [forall_mem_cons] at h
    rw [cons_append, preorder_of_seen h.1, ih h.2]

end Search

/-! ## 2. Classes -/

theorem Kind.isUnique_iff {k : Kind} :
    k.isUnique = true ↔ k.className = "MorphTargetsBlock" ∨ k.className = "BonesBlock" := by
  cases k with
  | math op => cases op <;> decide
  | _ => simp [isUnique, className]

theorem Block.isUnique_of_className {a b : Block} (h : a.className = b.className) :
    a.kind.isUnique = b.kind.isUnique := by
  have same : a.kind.className = b.kind.className := h
  rw [Bool.eq_iff_iff, Kind.isUnique_iff, Kind.isUnique_iff, same]

theorem Graph.Grown.className {g g' : Graph} (grown : g.Grown g') {x : BlockId} {b b' : Block}
    (hb : g.get? x = some b) (hb' : g'.get? x = some b') : b'.className = b.className := by
  obtain ⟨c, hc, same⟩ := exists_get?_of_stems grown.stems hb
  cases hb'.symm.trans hc
  unfold Block.className
  rw [← Kind.className_bare, Block.bare_kind_of_stem same, Kind.className_bare]

/-! ## 3. Walks -/

namespace Preparation

variable {p p' p'' q : Preparation} {g : Graph} {stage : Stage} {id : BlockId} {block : Block}
  {steps : Nat} {todo roots : List BlockId}

/-- A block that is attached without a fault comes last, and no other block of its class is attached
if the class is unique. -/
theorem attach_clear (hid : id ∈ p.graph.ids) (hf : (p.attach id).fault = none) :
    (p.attach id).attached = pushNew id p.attached ∧
      (id ∉ p.attached → ∀ x ∈ p.attached, ∀ a b, p.graph.get? x = some a →
        p.graph.get? id = some b → a.className = b.className → b.kind.isUnique = false) := by
  obtain ⟨c, hc⟩ := mem_ids_iff.mp hid
  unfold attach at hf ⊢
  by_cases old : id ∈ p.attached
  · rw [if_pos (contains_iff_mem.mpr old), pushNew, if_pos old]
    exact ⟨rfl, fun fresh => absurd old fresh⟩
  · rw [if_neg (mt contains_iff_mem.mp old), find_of_get? hc] at hf ⊢
    dsimp only at hf ⊢
    split at hf
    · cases hf
    · rename_i clear
      rw [if_neg clear, pushNew, if_neg old]
      refine ⟨rfl, fun _ x hx a b ha hb same => ?_⟩
      cases hc.symm.trans hb
      refine Bool.eq_false_iff.mpr fun unique => clear (Bool.and_eq_true_iff.mpr ⟨unique, ?_⟩)
      exact any_eq_true.mpr ⟨a, mem_filterMap.mpr ⟨x, hx, ha⟩, beq_iff_eq.mpr same⟩

theorem meet_clear (hp : p.graph.Proper) (hb : p.graph.get? block.id = some block)
    (hf : (p.meet block).fault = none) :
    (p.meet block).attached = pushNew block.id p.attached ∧
      (p.meet block).prepared = pushNew block.id p.prepared ∧
      (block.id ∉ p.attached → ∀ x ∈ p.attached, ∀ a b, (p.meet block).graph.get? x = some a →
        (p.meet block).graph.get? block.id = some b → a.className = b.className →
        b.kind.isUnique = false) := by
  have wished := local_wished hp hb
  have fields : ((p.entering block).fulfil block).attached = p.attached ∧
      ((p.entering block).fulfil block).prepared = pushNew block.id p.prepared := by
    unfold Preparation.fulfil
    split <;> exact ⟨rfl, rfl⟩
  obtain ⟨b, hb', -⟩ := wished.blocks block.id block hb
  obtain ⟨attached, clear⟩ := attach_clear (mem_ids_iff.mpr ⟨b, hb'⟩) hf
  obtain ⟨graph, -⟩ := attach_eq ((p.entering block).fulfil block) block.id
  rw [fields.1] at attached clear
  refine ⟨attached, (prepared_attach _ _).1.trans fields.2, ?_⟩
  unfold meet
  rw [graph]
  exact clear

/-- What is attached while a walk goes on, compared with the graph `g` that it will leave. Blocks
that an earlier walk has attached, and that this one has not met yet, have everything behind them
attached. -/
structure Tracks (g : Graph) (p : Preparation) : Prop where
  met : ∀ x ∈ p.visited, x ∈ g.ids → x ∈ p.attached
  known : p.attached ⊆ p.prepared
  closed : ∀ x ∈ p.attached, x ∉ p.visited → ∀ y, g.Upstream x y → y ∈ p.attached
  single : ∀ x ∈ p.attached, ∀ y ∈ p.attached, ∀ a b, g.get? x = some a → g.get? y = some b →
    a.className = b.className → b.kind.isUnique = true → x = y

theorem Tracks.of_same (h : Tracks g p) (visited : p'.visited = p.visited)
    (attached : p'.attached = p.attached) (prepared : p'.prepared = p.prepared) : Tracks g p' := by
  obtain ⟨met, known, closed, single⟩ := h
  constructor
  case met => rw [visited, attached]; exact met
  case known => rw [attached, prepared]; exact known
  case closed => rw [visited, attached]; exact closed
  case single => rw [attached]; exact single

/-- A part of a walk that attaches what the search through `g` lists next. -/
def Lists (g : Graph) (todo : List BlockId) (p p' : Preparation) : Prop :=
  ∀ rest, Search.preorder g.ids g.feeders p.attached.reverse (todo ++ rest) =
    Search.preorder g.ids g.feeders p'.attached.reverse rest

theorem Lists.nil (same : p'.attached = p.attached) : Lists g [] p p' := by
  intro rest
  rw [same]
  rfl

theorem Lists.append {more : List BlockId} (h : Lists g todo p p') (h' : Lists g more p' p'') :
    Lists g (todo ++ more) p p'' := by
  intro rest
  rw [append_assoc, h, h']

theorem Lists.of_subset (same : p'.attached = p.attached)
    (h : ∀ x ∈ todo, x ∈ g.ids → x ∈ p.attached) : Lists g todo p p' := by
  intro rest
  rw [same]
  exact preorder_of_subset fun x hx there => mem_reverse.mpr (h x hx there)

section Meet

variable (h : Tracks q.graph p) (quiet : p.Quiet) (hb : p.graph.get? block.id = some block)
  (future : (p.meet block).Settles q) (hf : (p.meet block).fault = none)
include h quiet hb future hf

theorem Tracks.meet : Tracks q.graph (p.meet block) := by
  obtain ⟨attached, prepared, clear⟩ := meet_clear quiet.proper hb hf
  have visited := visited_meet p block
  have settled := settles_meet quiet hb
  -- classes are those of the graph in which the block was attached
  have before : ∀ {x b}, x ∈ p.graph.ids → q.graph.get? x = some b →
      ∃ b', (p.meet block).graph.get? x = some b' ∧ b'.className = b.className := by
    intro x b hx hb
    obtain ⟨b', hb'⟩ := mem_ids_iff.mp (settled.mem_ids hx)
    exact ⟨b', hb', (future.grown.className hb' hb).symm⟩
  have here : block.id ∈ p.graph.ids := mem_ids_iff.mpr ⟨block, hb⟩
  have alone : block.id ∉ p.attached → ∀ x ∈ p.attached, ∀ a b, q.graph.get? x = some a →
      q.graph.get? block.id = some b → a.className = b.className → b.kind.isUnique = false := by
    intro fresh x hx a b ha hb same
    obtain ⟨a', ha', classA⟩ := before (quiet.met x (h.known hx)) ha
    obtain ⟨b', hb', classB⟩ := before here hb
    rw [← Block.isUnique_of_className classB]
    exact clear fresh x hx a' b' ha' hb' (classA.trans (same.trans classB.symm))
  constructor
  case met =>
    rw [visited, attached, forall_mem_cons]
    exact ⟨fun _ => mem_pushNew.mpr (.inr rfl),
      fun x hx there => mem_pushNew.mpr (.inl (h.met x hx there))⟩
  case known =>
    rw [attached, prepared]
    intro x hx
    exact mem_pushNew.mpr ((mem_pushNew.mp hx).imp_left fun hx => h.known hx)
  case closed =>
    rw [visited, attached]
    intro x hx hn y up
    rw [List.mem_cons, not_or] at hn
    have old := (mem_pushNew.mp hx).resolve_right hn.1
    exact mem_pushNew.mpr (.inl (h.closed x old hn.2 y up))
  case single =>
    rw [attached]
    intro x hx y hy a b ha hb same unique
    by_cases old : block.id ∈ p.attached
    · rw [pushNew, if_pos old] at hx hy
      exact h.single x hx y hy a b ha hb same unique
    · rcases mem_pushNew.mp hx with hx | rfl <;> rcases mem_pushNew.mp hy with hy | rfl
      · exact h.single x hx y hy a b ha hb same unique
      · rw [alone old x hx a b ha hb same] at unique
        cases unique
      · rw [← Block.isUnique_of_className same, alone old y hy b a hb ha same.symm] at unique
        cases unique
      · rfl

/-- The search goes on with what feeds the block, also if the block was attached by an earlier
walk: then all that feeds it is attached. -/
theorem Tracks.lists_meet (hid : block.id ∉ p.visited) (rest : List BlockId) :
    Search.preorder q.graph.ids q.graph.feeders p.attached.reverse (block.id :: rest) =
      Search.preorder q.graph.ids q.graph.feeders (p.meet block).attached.reverse
        (q.graph.feeders block.id ++ rest) := by
  obtain ⟨attached, -⟩ := meet_clear quiet.proper hb hf
  by_cases old : block.id ∈ p.attached
  · rw [preorder_of_seen fun _ => mem_reverse.mpr old, attached, pushNew, if_pos old]
    refine (preorder_of_subset fun y hy there => mem_reverse.mpr ?_).symm
    exact h.closed _ old hid y (upstream_of_mem_feeders hy there)
  · have here : block.id ∈ q.graph.ids := future.mem_ids
      ((settles_meet quiet hb).mem_ids (mem_ids_iff.mpr ⟨block, hb⟩))
    rw [preorder_of_fresh here (mt mem_reverse.mp old), attached, pushNew, if_neg old,
      reverse_append]
    rfl

end Meet

/-- A walk without a fault attaches what the search lists before it comes to the end of what is
behind the blocks of its task. -/
theorem Walks.tracks {task : Task} (w : Walks stage task p p') (h : Tracks q.graph p)
    (quiet : p.Quiet) (hids : ∀ y ∈ task.ids, y ∈ p.graph.ids ∨ y ∉ q.graph.ids)
    (hf : p'.fault = none) (future : p'.Settles q) :
    Tracks q.graph p' ∧ Lists q.graph task.ids p p' := by
  induction w with
  | @again id p hid =>
    refine ⟨h, .of_subset rfl fun x hx => ?_⟩
    rw [mem_singleton.mp hx]
    exact h.met id hid
  | @missing id p _ hb =>
    have gone := (hids _ mem_cons_self).resolve_left (get?_eq_none_iff.mp hb)
    refine ⟨⟨?_, h.known, fun x hx hn => h.closed x hx fun old => hn (mem_cons_of_mem _ old),
      h.single⟩, .of_subset rfl fun x hx there => ?_⟩
    · exact forall_mem_cons.mpr ⟨fun there => absurd there gone, h.met⟩
    · exact absurd (mem_singleton.mp hx ▸ there) gone
  | blocked _ _ blocked => exact absurd hf blocked
  | @meet id p r block hid hb start w ih =>
    obtain rfl := id_of_get? hb
    have settled := settles_meet quiet hb
    have reset := settles_resetInputs settled.quiet block.id
    have fed := w.settles reset.quiet
    have carried := andThen_of_fault hf
    rw [carried] at hf future ⊢
    have ahead := (settles_resetOutputs fed.quiet block.id).trans future
    have tracks := h.meet quiet hb (reset.trans (fed.trans ahead)) start
    -- the links of the block stay as they are now
    obtain ⟨b, hb'⟩ := mem_ids_iff.mp
      (reset.mem_ids (settled.mem_ids (mem_ids_iff.mpr ⟨block, hb⟩)))
    have feeders : q.graph.feeders block.id =
        ((p.meet block).resetInputs block.id).graph.feeders block.id :=
      feeders_of_grown (fed.trans ahead).grown hb' fun i =>
        (fed.trans ahead).frame _ (mem_prepared_meet p block)
    obtain ⟨tracksAll, listsAll⟩ := ih (tracks.of_same rfl rfl rfl) reset.quiet
      (fun y hy => (fed.trans ahead).feeders_there reset.quiet hy) hf ahead
    refine ⟨tracksAll.of_same rfl rfl rfl, fun rest => ?_⟩
    have listed := h.lists_meet quiet hb (reset.trans (fed.trans ahead)) start hid rest
    rw [feeders] at listed
    exact listed.trans (listsAll rest)
  | nil => exact ⟨h, .nil rfl⟩
  | halted faulty => exact absurd hf faulty
  | @next feeds id rest p s r _ w w' first others =>
    rw [Task.ids, forall_mem_cons] at hids
    have noted := (stable_settles stage p).note feeds id (.refl quiet)
    have turned := noted.trans (w.settles noted.quiet)
    have onward := w'.settles turned.quiet
    obtain ⟨crossing, same⟩ := note_eq p stage feeds id
    rw [same] at w first noted
    obtain ⟨tracks, lists⟩ := first (h.of_same rfl rfl rfl) noted.quiet (fun y hy => by
      rw [mem_singleton.mp hy]
      exact hids.1) ((w'.widens turned.quiet.proper).fault hf) (onward.trans future)
    obtain ⟨tracksRest, listsRest⟩ := others tracks turned.quiet
      (fun y hy => (hids.2 y hy).imp_left turned.mem_ids) hf future
    have here : Lists q.graph [id] p s := lists
    exact ⟨tracksRest, here.append listsRest⟩

/-- A walk goes on with what was attached before, if everything behind that was attached too. -/
theorem Tracks.walk (h : Tracks q.graph p) (quiet : p.Quiet)
    (closed : ∀ x ∈ p.attached, ∀ y, q.graph.Upstream x y → y ∈ p.attached)
    (hroots : ∀ x ∈ roots, x ∈ p.graph.ids) (hf : (p.walk stage roots).fault = none)
    (future : (p.walk stage roots).Settles q) :
    Tracks q.graph (p.walk stage roots) ∧ Lists q.graph roots p (p.walk stage roots) := by
  have fresh : p.Settles { p with visited := [], crossing := [] } := .of_bare quiet rfl rfl rfl
  have start : Tracks q.graph { p with visited := [], crossing := [] } :=
    ⟨nofun, h.known, fun x hx _ => closed x hx, h.single⟩
  exact (walks_walk stage roots quiet.proper).1.tracks start fresh.quiet
    (fun x hx => .inl (hroots x hx)) hf future

end Preparation

/-! ## 4. Passes -/

namespace Material

open Preparation (Tracks Lists)

variable {m : Material} {x y : BlockId}

section

variable (hg : m.graph.Proper) (planted : m.Planted)
include hg planted

/-- The first walk of a pass attaches what the search lists behind the roots of the vertex stage. -/
theorem tracks_firstWalk (clear : m.firstWalk.fault = none) :
    Tracks m.prepare.state.graph m.firstWalk ∧
      Lists m.prepare.state.graph m.roots.vertex m.unprepared m.firstWalk := by
  have start : Tracks m.prepare.state.graph m.unprepared :=
    ⟨nofun, nil_subset _, nofun, nofun⟩
  exact start.walk (quiet_unprepared hg) nofun (planted .vertex) clear (settles_prepare hg)

/-- A pass without a fault attaches what the search lists in the graph that comes of its walks. That
is all that its walks meet, and no two blocks of a unique class. -/
theorem attached_prepare (hf : m.prepare.state.fault = none) :
    m.prepare.state.attached =
        m.prepare.state.graph.gather (m.roots.vertex ++ m.roots.fragment) ∧
      (∀ x ∈ m.firstWalk.visited, x ∈ m.prepare.state.graph.ids → x ∈ m.prepare.state.attached) ∧
      Tracks m.prepare.state.graph m.prepare.state := by
  have settled := settles_firstWalk hg
  have later := settles_prepare hg
  obtain ⟨eq, clear, covered, -⟩ := prepare_clear hg hf
  obtain ⟨first, lists⟩ := tracks_firstWalk hg planted clear
  -- what feeds a block that the first walk met was met, and the second walk adds nothing there
  have closed : ∀ x ∈ m.firstWalk.attached, ∀ y, m.prepare.state.graph.Upstream x y →
      y ∈ m.firstWalk.attached := by
    intro x hx y up
    by_cases hmet : x ∈ m.firstWalk.visited
    · obtain ⟨b, hb⟩ := Graph.mem_ids_iff.mp (settled.quiet.met x (first.known hx))
      have apart : y ≠ x := by
        rintro rfl
        exact later.quiet.proper.acyclic _ (.single up)
      have feeds := mem_feeders_of_upstream up apart
      rw [feeders_of_grown later.grown hb fun i => later.frame _ (first.known hx)] at feeds
      have here := later.quiet.proper.coherent.mem_ids_of_upstream up
      have there := (later.feeders_there settled.quiet feeds).resolve_right fun gone => gone here
      exact first.met y (covered.closed x hmet y (upstream_of_mem_feeders feeds there)).1 here
    · exact first.closed x hx hmet y up
  have fragment : Tracks m.prepare.state.graph m.prepare.state ∧
      Lists m.prepare.state.graph m.roots.fragment m.firstWalk m.prepare.state := by
    rw [eq] at hf first later closed ⊢
    exact first.walk settled.quiet closed
      (fun x hx => settled.mem_ids (planted .fragment x hx)) hf (.refl later.quiet)
  refine ⟨?_, fun x hx there => ?_, fragment.1⟩
  · have both := (lists.append fragment.2) []
    rw [List.append_nil, Search.preorder, List.reverse_reverse] at both
    exact both.symm
  · have kept := fragment.2 []
    rw [Search.preorder, List.reverse_reverse] at kept
    rw [← kept]
    exact Search.mem_preorder_of_seen (List.mem_reverse.mpr (first.met x hx there))

/-- Two blocks of one unique class are behind the roots. -/
def Repeats (m : Material) : Prop :=
  ∃ x ∈ m.graph.gather (m.roots.vertex ++ m.roots.fragment),
    ∃ y ∈ m.graph.gather (m.roots.vertex ++ m.roots.fragment), ∃ a b : Block, x ≠ y ∧
      m.graph.get? x = some a ∧ m.graph.get? y = some b ∧ a.className = b.className ∧
      b.kind.isUnique = true

/-- A fault blames two blocks that are behind the roots: what the walks add are input blocks. -/
theorem repeats_of_fault {fault : MaterialError} (hf : m.prepare.state.fault = some fault) :
    m.Repeats ∧ ∃ className name, fault = .duplicateUniqueBlock className name := by
  obtain ⟨x, y, a, b, nearX, nearY, apart, ha, hb, same, unique, rfl⟩ :=
    (orderly_prepare hg planted).2.blames fault hf
  refine ⟨?_, _, _, rfl⟩
  obtain ⟨extension, -⟩ := extends_prepare hg
  have grown := ((settles_firstWalk hg).trans (settles_prepare hg)).grown
  have old : ∀ {x c}, m.Near x → m.prepare.state.graph.get? x = some c → c.kind.isUnique = true →
      x ∈ m.graph.gather (m.roots.vertex ++ m.roots.fragment) ∧
        ∃ c₀, m.graph.get? x = some c₀ ∧ c.className = c₀.className := by
    intro x c near hc unique
    have leaf : c.kind.isInput = false := by
      cases hk : c.kind with
      | input i => rw [hk] at unique; cases unique
      | _ => rfl
    obtain ⟨c₀, hc₀, shape⟩ := extension.back hc leaf
    refine ⟨Graph.mem_gather_iff.mpr ⟨Graph.mem_ids_iff.mpr ⟨c₀, hc₀⟩, near.resolve_right ?_⟩,
      c₀, hc₀, grown.className hc₀ hc⟩
    intro hin
    rw [Block.isInput_of_shape shape, hin c₀ hc₀] at leaf
    cases leaf
  obtain ⟨hx, a₀, ha₀, classA⟩ := old nearX ha ((Block.isUnique_of_className same).trans unique)
  obtain ⟨hy, b₀, hb₀, classB⟩ := old nearY hb unique
  exact ⟨x, hx, y, hy, a₀, b₀, apart, ha₀, hb₀, classA.symm.trans (same.trans classB),
    (Block.isUnique_of_className classB).symm.trans unique⟩

theorem fault_of_repeats (h : m.Repeats) : m.prepare.state.fault ≠ none := by
  intro hf
  obtain ⟨x, hx, y, hy, a, b, apart, ha, hb, same, unique⟩ := h
  obtain ⟨attached, -, tracks⟩ := attached_prepare hg planted hf
  have grown := ((settles_firstWalk hg).trans (settles_prepare hg)).grown
  have kept : ∀ {x c}, x ∈ m.graph.gather (m.roots.vertex ++ m.roots.fragment) →
      m.graph.get? x = some c → x ∈ m.prepare.state.attached ∧
        ∃ c', m.prepare.state.graph.get? x = some c' ∧ c'.className = c.className := by
    intro x c hx hc
    obtain ⟨c', hc', -⟩ := exists_get?_of_stems grown.stems hc
    refine ⟨?_, c', hc', grown.className hc hc'⟩
    obtain ⟨-, n, hn, path⟩ := mem_gather_iff.mp hx
    rw [attached, mem_gather_iff]
    exact ⟨Graph.mem_ids_iff.mpr ⟨c', hc'⟩, n, hn, path.lift id fun _ _ up => grown.upstream up⟩
  obtain ⟨hx', a', ha', classA⟩ := kept hx ha
  obtain ⟨hy', b', hb', classB⟩ := kept hy hb
  exact apart (tracks.single x hx' y hy' a' b' ha' hb' (classA.trans (same.trans classB.symm))
    ((Block.isUnique_of_className classB).trans unique))

end

theorem build_eq_runPass (fragment : m.roots.fragment ≠ [])
    (vertex : m.roots.vertex ≠ [] ∨ m.mode.allowsEmptyVertex = true) : m.build = m.runPass := by
  unfold build
  rw [if_neg (mt List.isEmpty_iff.mp fragment), if_neg]
  rcases vertex with vertex | vertex
  · simp [vertex]
  · simp [vertex]

/-- A build of a material with roots is refused exactly if two blocks of one unique class are behind
the roots, and then no result is kept. Otherwise the attached blocks are what the roots reach in the
graph that the build leaves, in the order of the search. -/
theorem build_attaches_gathered (hm : m.Reachable) (fragment : m.roots.fragment ≠ [])
    (vertex : m.roots.vertex ≠ [] ∨ m.mode.allowsEmptyVertex = true) :
    ((∃ className name, m.build.1 = .error (.duplicateUniqueBlock className name)) ↔ m.Repeats) ∧
      (m.Repeats → m.build.2.compiled = none) ∧
      (¬m.Repeats → m.build.2.attached =
        m.build.2.graph.gather (m.roots.vertex ++ m.roots.fragment)) := by
  have hg := hm.wellFormed.graph
  have run := (build_eq_runPass fragment vertex).trans m.runPass_eq
  cases hf : m.prepare.state.fault with
  | some fault =>
    obtain ⟨repeated, className, name, rfl⟩ := repeats_of_fault hg hm.planted hf
    rw [hf] at run
    rw [run]
    exact ⟨iff_of_true ⟨className, name, rfl⟩ repeated, fun _ => rfl,
      fun unrepeated => absurd repeated unrepeated⟩
  | none =>
    have unrepeated : ¬m.Repeats := fun h => fault_of_repeats hg hm.planted h hf
    obtain ⟨attached, -⟩ := attached_prepare hg hm.planted hf
    have left : (∀ className name, m.build.1 ≠ .error (.duplicateUniqueBlock className name)) ∧
        m.build.2.attached = m.prepare.state.attached ∧
          m.build.2.graph = Emission.lastGraph m.emission := by
      rw [run, hf]
      cases he : m.emission with
      | error halt => exact ⟨nofun, rfl, rfl⟩
      | ok e =>
        dsimp only
        split <;> exact ⟨nofun, rfl, rfl⟩
    refine ⟨iff_of_false (fun ⟨_, _, h⟩ => left.1 _ _ h) unrepeated, fun h => absurd h unrepeated,
      fun _ => ?_⟩
    rw [left.2.1, left.2.2, gather_of_outlines (emission_outcome hg).last.1, attached]

/-- The material with the bones, and more bones as another root. -/
def twoSkeletons : Material :=
  { skinned.addBlock "more bones" (.bones {}) with roots := ⟨[⟨3⟩, ⟨4⟩], [⟨2⟩]⟩ }

theorem reachable_twoSkeletons : twoSkeletons.Reachable :=
  .addRoot (.addBlock "more bones" (.bones {}) reachable_skinned nofun)
    (show addRoot _ ⟨4⟩ = .ok twoSkeletons from rfl)

theorem skeletons_attach_gathered :
    skinned.Reachable ∧ ¬skinned.Repeats ∧ skinned.build.2.attached =
        skinned.build.2.graph.gather (skinned.roots.vertex ++ skinned.roots.fragment) ∧
      twoSkeletons.Reachable ∧ twoSkeletons.Repeats ∧
      (∃ className name, twoSkeletons.build.1 = .error (.duplicateUniqueBlock className name)) ∧
      twoSkeletons.build.2.compiled = none := by
  obtain ⟨refused, -, attached⟩ := build_attaches_gathered reachable_skinned (by decide)
    (.inl (by decide))
  obtain ⟨refused', forgotten, -⟩ := build_attaches_gathered reachable_twoSkeletons (by decide)
    (.inl (by decide))
  have unrepeated : ¬skinned.Repeats := by
    obtain ⟨c, m', built⟩ := exists_build_of_unrepeated reachable_skinned (by decide) (by decide)
      (by decide) (not_lost_of_free (by decide))
    rw [← refused, built]
    rintro ⟨_, _, h⟩
    cases h
  have repeated : twoSkeletons.Repeats :=
    ⟨⟨3⟩, mem_gather_of_mem (by decide) (by decide), ⟨4⟩,
      mem_gather_of_mem (by decide) (by decide), _, _, by decide, rfl, rfl, rfl, rfl⟩
  exact ⟨reachable_skinned, unrepeated, attached unrepeated, reachable_twoSkeletons, repeated,
    refused'.mpr repeated, forgotten repeated⟩

end Material

end ShaderGraph
