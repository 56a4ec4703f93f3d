import ShaderGraph.Proofs.Bounds
import ShaderGraph.Proofs.Mirrors
import ShaderGraph.Proofs.Wishes

/-!
# Walks over a graph that walks have left

A walk changes the graph under its feet: it adds blocks and links as the kinds of the blocks wish.
A walk over the graph that comes of this, or over one that mirrors it, meets the same blocks in the
same order and adds nothing (`Preparation.Retraces`). The first walk must be compared with what the
graph will be: a block that was met keeps its links (`Preparation.Settles`), so that what feeds it
in the end is what fed it when it was met.
-/

namespace ShaderGraph

open List ShaderGraph.Graph Option Block

variable {f : BlockId → BlockId}

/-! ## 1. Blocks without leftovers -/

theorem map_pushNew (hf : f.Injective) (x : BlockId) (xs : List BlockId) :
    (pushNew x xs).map f = pushNew (f x) (xs.map f) := by
  simp only [pushNew, List.mem_map_of_injective hf]
  split
  · rfl
  · simp

/-- A start enters the same in the ledger for kinds that mirror each other. -/
theorem Kind.Mirrors.ledger_start {k k' : Kind} (h : k.bare.Mirrors f k'.bare) (l : Ledger) :
    (k'.start (l.relabel f)).2 = (k.start l).2.relabel f := by
  have view : ∀ (k : Kind) (l : Ledger), (k.start l).2 = (k.bare.start l).2 := by
    intro k l
    cases k <;> rfl
  rw [view k', view k]
  generalize k.bare = c at h
  generalize k'.bare = c' at h
  cases h with
  | input b =>
    obtain ⟨source, type, value, animation, uniformName⟩ := b
    cases source <;> rfl
  | _ => rfl

theorem Kind.isUnique_bare (k : Kind) : k.bare.isUnique = k.isUnique := by cases k <;> rfl

theorem Kind.className_bare (k : Kind) : k.bare.className = k.className := by cases k <;> rfl

theorem Block.feeders_bare (b : Block) : b.bare.feeders = b.feeders := by
  rw [feeders, feeders]
  simp only [bare, b.kind.alike_bare.entry, filterMap_map]
  rfl

namespace Graph

variable {g g' : Graph} {x : BlockId} {b : Block}

theorem feeders_bare (g : Graph) (x : BlockId) : g.bare.feeders x = g.feeders x := by
  rw [feeders, feeders, get?_bare]
  cases g.get? x with
  | none => rfl
  | some b => exact b.feeders_bare

theorem feeders_of_bare (h : g'.bare = g.bare) (x : BlockId) : g'.feeders x = g.feeders x := by
  rw [← feeders_bare, h, feeders_bare]

theorem feeders_of_grown (grown : g.Grown g') (hb : g.get? x = some b)
    (frame : ∀ i, g'.source? ⟨x, i⟩ = g.source? ⟨x, i⟩) : g'.feeders x = g.feeders x := by
  obtain ⟨b', hb', same⟩ := exists_get?_of_stems grown.stems hb
  have links : b'.inputs.map InputSocket.link = b.inputs.map InputSocket.link := by
    refine ext_getElem? fun i => ?_
    have specs := congrArg (fun specs => specs[i]?) (inputs_of_stem same)
    have source := frame i
    simp only [source?, input?, hb, hb', bind_some] at source
    simp only [getElem?_map] at specs ⊢
    cases hi : b.inputs[i]? with
    | none =>
      rw [hi, map_none, map_eq_none_iff] at specs
      rw [specs]
    | some p =>
      rw [hi, map_some] at specs
      obtain ⟨p', hi', -⟩ := map_eq_some_iff.mp specs
      rw [hi, hi'] at source
      rw [hi']
      exact congrArg some source
  have view : ∀ b : Block, (b.inputs.filterMap fun p => p.link.map SocketRef.block) =
      (b.inputs.map InputSocket.link).filterMap fun link => link.map SocketRef.block := by
    intro b
    rw [filterMap_map]
    rfl
  rw [feeders, feeders, hb, hb']
  change b'.feeders = b.feeders
  rw [Block.feeders, Block.feeders, view, view, links, id_of_get? hb, id_of_get? hb',
    entry_of_stem same]

end Graph

/-! ## 2. Walks -/

namespace Preparation

variable {p p' q : Preparation} {g' : Graph} {stage : Stage} {id : BlockId} {block block' : Block}

def Task.map (f : BlockId → BlockId) : Task → Task
  | .visit id => .visit (f id)
  | .all feeds ids => .all feeds (ids.map f)

/-- A walk that has come as far as another one, over the graph `g'` that mirrors what the other walk
leaves in the end. -/
structure Retraces (f : BlockId → BlockId) (q : Preparation) (g' : Graph) (p p' : Preparation) :
    Prop where
  graph : p'.graph.bare = g'.bare
  ledger : p'.ledger = p.ledger.relabel f
  attached : p'.attached = p.attached.map f
  visited : p'.visited = p.visited.map f
  prepared : p'.prepared = p.prepared.map f
  crossing : p'.crossing = p.crossing.map f
  fault : p'.fault = p.fault
  content : p'.autoConfigure = true → ∀ x ∈ q.prepared, g'.Content (f x)
  known : p.attached ⊆ p.prepared

theorem mem_prepared_meet (p : Preparation) (block : Block) :
    block.id ∈ (p.meet block).prepared := by
  obtain ⟨prepared, -⟩ := prepared_attach ((p.entering block).fulfil block) block.id
  rw [Preparation.meet, prepared]
  unfold Preparation.fulfil
  split <;> exact mem_pushNew.mpr (.inr rfl)

namespace Retraces

variable (h : Retraces f q g' p p')
include h

theorem proper (hg : g'.Proper) : p'.graph.Proper :=
  hg.of_outlines (outlines_of_bare h.graph) (nextId_of_bare h.graph).ge

theorem andThen {step step' : Preparation → Preparation}
    (next : p.fault = none → Retraces f q g' (step p) (step' p')) :
    Retraces f q g' (p.andThen step) (p'.andThen step') := by
  unfold Preparation.andThen
  rw [h.fault]
  split
  · exact h
  · rename_i clear
    exact next (by simpa using clear)

theorem resetInputs (x y : BlockId) : Retraces f q g' (p.resetInputs x) (p'.resetInputs y) :=
  ⟨(bare_resetInputs p' y).trans h.graph, h.ledger, h.attached, h.visited, h.prepared, h.crossing,
    h.fault, h.content, h.known⟩

theorem resetOutputs (x y : BlockId) : Retraces f q g' (p.resetOutputs x) (p'.resetOutputs y) :=
  ⟨(bare_resetOutputs p' y).trans h.graph, h.ledger, h.attached, h.visited, h.prepared, h.crossing,
    h.fault, h.content, h.known⟩

section Plan

variable (plan : q.graph.bare.Mirrors f (fun _ => True) g'.bare)
  {roots : List BlockId}
include plan

theorem current (grown : p.graph.Grown q.graph) (hb : p.graph.get? id = some block) :
    ∃ block', p'.graph.get? (f id) = some block' ∧ block'.name = block.name ∧
      block.kind.bare.Mirrors f block'.kind.bare := by
  obtain ⟨c, hc, same⟩ := exists_get?_of_stems grown.stems hb
  obtain ⟨d, hd, mirrors⟩ := plan.get? (x := id) (b := c.bare) trivial (by rw [get?_bare, hc]; rfl)
  rw [← h.graph, get?_bare] at hd
  obtain ⟨block', hb', rfl⟩ := map_eq_some_iff.mp hd
  refine ⟨block', hb', ?_, ?_⟩
  · have name : c.stem.name = block.stem.name := congrArg Block.name same
    exact (show block'.name = c.name from mirrors.name).trans name
  · rw [← bare_kind_of_stem same]
    exact mirrors.kind

theorem missing (gone : id ∉ q.graph.ids) : p'.graph.get? (f id) = none := by
  have absent := plan.get?_eq_none (x := id) trivial
    (by rw [get?_bare, get?_eq_none_iff.mpr gone]; rfl)
  rwa [← h.graph, get?_bare, map_eq_none_iff] at absent

theorem feeders (hf : f.Injective) (future : p.Settles q) (hid : id ∈ p.prepared)
    (hb : p.graph.get? id = some block) : p'.graph.feeders (f id) = (p.graph.feeders id).map f := by
  rw [Graph.feeders_of_bare h.graph, ← Graph.feeders_bare, plan.feeders hf trivial,
    Graph.feeders_bare]
  exact congrArg (List.map f) (feeders_of_grown future.grown hb fun i => future.frame _ hid)

section

variable (hf : f.Injective) (grown : p.graph.Grown q.graph)
include hf grown

theorem noteCrossing (stage : Stage) {producer : BlockId}
    (hid : producer ∈ p.graph.ids ∨ producer ∉ q.graph.ids) :
    Retraces f q g' (p.noteCrossing stage producer) (p'.noteCrossing stage (f producer)) := by
  rcases hid with hid | gone
  case inr =>
    have missing := get?_eq_none_iff.mpr fun there => gone (grown.mem_ids there)
    simp only [Preparation.noteCrossing, isCrossing, missing, h.missing plan gone]
    exact h
  obtain ⟨b, hb⟩ := mem_ids_iff.mp hid
  obtain ⟨b', hb', -, mirrors⟩ := h.current plan grown hb
  have target : b'.target = b.target := by
    have same := mirrors.target
    rwa [b'.kind.alike_bare.target, b.kind.alike_bare.target] at same
  have prepared : p'.prepared.contains (f producer) = p.prepared.contains producer := by
    rw [Bool.eq_iff_iff, List.contains_iff_mem, List.contains_iff_mem, h.prepared,
      List.mem_map_of_injective hf]
  have crossing : p'.isCrossing stage (f producer) = p.isCrossing stage producer := by
    simp only [isCrossing, hb, hb', target, prepared]
  unfold Preparation.noteCrossing
  rw [crossing]
  split
  · refine ⟨h.graph, h.ledger, h.attached, h.visited, h.prepared, ?_, h.fault, h.content, h.known⟩
    simp only [h.crossing, map_pushNew hf]
  · exact h

theorem note (stage : Stage) (feeds : Bool) (hid : id ∈ p.graph.ids ∨ id ∉ q.graph.ids) :
    Retraces f q g' (p.note stage feeds id) (p'.note stage feeds (f id)) := by
  cases feeds with
  | true => exact h.noteCrossing plan hf grown stage hid
  | false => exact h

theorem attach (met : ∀ x ∈ p.prepared, x ∈ p.graph.ids) (hid : id ∈ p.prepared) :
    Retraces f q g' (p.attach id) (p'.attach (f id)) := by
  obtain ⟨b, hb⟩ := mem_ids_iff.mp (met id hid)
  obtain ⟨b', hb', name, mirrors⟩ := h.current plan grown hb
  have className : b'.className = b.className := by
    have same := mirrors.className
    rwa [Kind.className_bare, Kind.className_bare] at same
  have isUnique : b'.kind.isUnique = b.kind.isUnique := by
    have same := mirrors.isUnique
    rwa [Kind.isUnique_bare, Kind.isUnique_bare] at same
  have attached : p'.attached.contains (f id) = p.attached.contains id := by
    rw [Bool.eq_iff_iff, List.contains_iff_mem, List.contains_iff_mem, h.attached,
      List.mem_map_of_injective hf]
  -- what is attached was met, so that both walks find it
  have names : (p'.attached.filterMap p'.graph.get?).map Block.className =
      (p.attached.filterMap p.graph.get?).map Block.className := by
    rw [h.attached, List.filterMap_map, List.map_filterMap, List.map_filterMap]
    refine List.filterMap_congr fun x hx => ?_
    obtain ⟨c, hc⟩ := mem_ids_iff.mp (met x (h.known hx))
    obtain ⟨c', hc', -, mirrors⟩ := h.current plan grown hc
    have same := mirrors.className
    rw [Kind.className_bare, Kind.className_bare] at same
    simp only [Function.comp_apply, hc, hc', Option.map_some]
    exact congrArg some same
  have clashes : p'.clashes b' = p.clashes b := by
    have view : ∀ blocks : List Block, (blocks.any fun c => c.className == b.className) =
        (blocks.map Block.className).any (· == b.className) := fun blocks => by
      rw [List.any_map]
      rfl
    rw [Preparation.clashes, Preparation.clashes, isUnique, className, view, view, names]
  unfold Preparation.attach
  rw [attached, find_of_get? hb, find_of_get? hb']
  dsimp only
  rw [clashes, className, name]
  split
  · exact h
  · split
    · exact ⟨h.graph, h.ledger, h.attached, h.visited, h.prepared, h.crossing, rfl, h.content,
        h.known⟩
    · refine ⟨h.graph, h.ledger, ?_, h.visited, h.prepared, h.crossing, h.fault, h.content, ?_⟩
      · simp [h.attached]
      · exact List.append_subset.mpr ⟨h.known, List.cons_subset.mpr ⟨hid, List.nil_subset _⟩⟩

end

omit plan in
/-- A block that is met again has no wishes left. -/
theorem fulfil (hid : block.id ∈ q.prepared) (hb' : p'.graph.get? (f block.id) = some block')
    {s : Preparation} (auto : s.autoConfigure = p'.autoConfigure)
    (bare : s.graph.bare = p'.graph.bare) : s.fulfil block' = s := by
  have id := id_of_get? hb'
  have there := mem_ids_iff.mpr ⟨block', hb'⟩
  unfold Preparation.fulfil
  split
  · rename_i on
    have within : f block.id ∈ g'.ids := by
      rwa [← ids_of_outlines (outlines_of_bare h.graph)]
    have content : p'.graph.Content (f block.id) :=
      (h.content (auto ▸ on) block.id hid).grown within (.of_bare h.graph)
    rw [id, foldl_fulfil_of_denies fun wish hw =>
      (content block' hb' wish hw).grown there (.of_bare bare)]
  · rfl

theorem meet (hf : f.Injective) (proper : g'.Proper) (quiet : p.Quiet)
    (hb : p.graph.get? block.id = some block) (future : (p.meet block).Settles q) :
    ∃ block', p'.graph.get? (f block.id) = some block' ∧
      Retraces f q g' (p.meet block) (p'.meet block') := by
  have settled := settles_meet quiet hb
  obtain ⟨graph, -⟩ := attach_eq ((p.entering block).fulfil block) block.id
  obtain ⟨prepared, -⟩ := prepared_attach ((p.entering block).fulfil block) block.id
  have here := mem_prepared_meet p block
  obtain ⟨block', hb', -, mirrors⟩ := h.current plan (settled.grown.trans future.grown) hb
  have id := id_of_get? hb'
  have bare : (p'.entering block').graph.bare = p'.graph.bare := by
    exact bare_start (p := { p' with visited := block'.id :: p'.visited }) (h.proper proper)
      (id ▸ hb')
  -- the block is started and its wishes are fulfilled: the second walk has nothing to add
  have wished : Retraces f q g' ((p.entering block).fulfil block) (p'.entering block') := by
    have started : Retraces f q g' (p.entering block) (p'.entering block') := by
      refine ⟨bare.trans h.graph, ?_, h.attached, ?_, ?_, h.crossing, h.fault, h.content, ?_⟩
      · simp only [Preparation.start, h.ledger, mirrors.ledger_start]
      · simp only [Preparation.start, id, h.visited, map_cons]
      · simp only [Preparation.start, id, h.prepared, map_pushNew hf]
      · exact List.Subset.trans h.known (subset_pushNew _ _)
    unfold Preparation.fulfil
    split
    · exact ⟨started.graph, started.ledger, started.attached, started.visited, started.prepared,
        started.crossing, started.fault, started.content, started.known⟩
    · exact started
  have still : (p'.entering block').fulfil block' = p'.entering block' :=
    h.fulfil (future.prepared here) hb' rfl bare
  have attached := wished.attach plan hf (graph ▸ future.grown) (fun x hx => by
    rw [← graph]
    exact settled.quiet.met x (prepared ▸ hx)) (prepared ▸ here)
  rw [← id] at attached
  refine ⟨block', hb', ?_⟩
  rw [Preparation.meet, Preparation.meet, still]
  exact attached

omit h in
/-- The second walk goes the way of the first. -/
theorem walks {task : Task} {r : Preparation} (hf : f.Injective) (proper : g'.Proper)
    (w : Walks stage task p r) (h : Retraces f q g' p p') (quiet : p.Quiet)
    (hids : ∀ y ∈ task.ids, y ∈ p.graph.ids ∨ y ∉ q.graph.ids) (future : r.Settles q) :
    ∃ r', Walks stage (task.map f) p' r' ∧ Retraces f q g' r r' := by
  have unmet : ∀ {p p' : Preparation} {x : BlockId}, Retraces f q g' p p' → x ∉ p.visited →
      f x ∉ p'.visited := by
    intro p p' x h hx
    rwa [h.visited, List.mem_map_of_injective hf]
  induction w generalizing p' with
  | again hid =>
    refine ⟨p', .again ?_, h⟩
    rw [h.visited]
    exact List.mem_map_of_mem hid
  | @missing id p hid hb =>
    have gone := (hids _ mem_cons_self).resolve_left (get?_eq_none_iff.mp hb)
    refine ⟨_, .missing (unmet h hid) (h.missing plan gone), ?_⟩
    exact ⟨h.graph, h.ledger, h.attached, by simp only [h.visited, map_cons], h.prepared,
      h.crossing, h.fault, h.content, h.known⟩
  | blocked hid hb blocked =>
    obtain rfl := id_of_get? hb
    obtain ⟨block', hb', met⟩ := h.meet plan hf proper quiet hb future
    exact ⟨_, .blocked (unmet h hid) hb' (met.fault ▸ blocked), met⟩
  | @meet id p r block hid hb clear w ih =>
    obtain rfl := id_of_get? hb
    have settled := settles_meet quiet hb
    have reset := settles_resetInputs settled.quiet block.id
    have fed := w.settles reset.quiet
    have ahead : r.Settles q :=
      ((Settles.refl fed.quiet).andThen (settles_resetOutputs fed.quiet block.id)).trans future
    obtain ⟨block', hb', met⟩ := h.meet plan hf proper quiet hb (reset.trans (fed.trans ahead))
    -- the links of the block stay as they are now
    obtain ⟨b, hb₁⟩ := mem_ids_iff.mp
      (reset.mem_ids (settled.mem_ids (mem_ids_iff.mpr ⟨block, hb⟩)))
    have again := met.resetInputs block.id (f block.id)
    have feeders := again.feeders plan hf (fed.trans ahead) (mem_prepared_meet p block) hb₁
    obtain ⟨r', behind, retraced⟩ := ih again reset.quiet
      (fun y hy => (fed.trans ahead).feeders_there reset.quiet hy) ahead
    rw [Task.map, ← feeders] at behind
    exact ⟨_, .meet (unmet h hid) hb' (met.fault ▸ clear) behind,
      retraced.andThen fun _ => retraced.resetOutputs block.id (f block.id)⟩
  | nil => exact ⟨p', .nil, h⟩
  | halted faulty => exact ⟨p', .halted (h.fault ▸ faulty), h⟩
  | @next feeds id rest p s r clear w w' first others =>
    rw [Task.ids, forall_mem_cons] at hids
    have noted := (stable_settles stage p).note feeds id (.refl quiet)
    have visited := w.settles noted.quiet
    have turned := noted.trans visited
    have onward := (w'.settles turned.quiet).trans future
    have start := h.note plan hf (turned.trans onward).grown stage feeds hids.1
    obtain ⟨s', walked, here⟩ := first start noted.quiet (fun y hy => by
      rw [mem_singleton.mp hy]
      exact hids.1.imp_left noted.mem_ids) onward
    obtain ⟨r', rest, there⟩ := others here turned.quiet
      (fun y hy => (hids.2 y hy).imp_left turned.mem_ids) future
    exact ⟨r', .next (h.fault ▸ clear) walked rest, there⟩

omit h in
theorem walk (hf : f.Injective) (proper : g'.Proper) (h : Retraces f q g' p p') (quiet : p.Quiet)
    (hroots : ∀ x ∈ roots, x ∈ p.graph.ids) (future : (p.walk stage roots).Settles q) :
    Retraces f q g' (p.walk stage roots) (p'.walk stage (roots.map f)) := by
  have fresh : Retraces f q g' { p with visited := [], crossing := [] }
      { p' with visited := [], crossing := [] } :=
    ⟨h.graph, h.ledger, h.attached, rfl, h.prepared, rfl, h.fault, h.content, h.known⟩
  obtain ⟨r', walked, retraced⟩ := fresh.walks plan hf proper
    (walks_walk stage roots quiet.proper).1 ⟨quiet.proper, quiet.met, quiet.content⟩
    (fun x hx => .inl (hroots x hx)) future
  rwa [walked.unique (walks_walk stage (roots.map f) (h.proper proper)).1]

end Plan

end Retraces

end Preparation

end ShaderGraph
