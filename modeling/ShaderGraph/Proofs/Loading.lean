import ShaderGraph.Proofs.Defines
import ShaderGraph.Proofs.Materials

/-!
# What a load does

A load adds a block for each entry of a document, restores the teleports, then the links, and adds
the roots. `Load.Gives` says that a part of a load succeeds; `Load.Added`, `Load.Teleported` and
`Load.Relinked` say what each stage has done then, and `Load.load_spec` puts the stages together.

Links are restored consumer by consumer, walking away from the blocks without links. So a link is
restored exactly if a chain of links leads from its consumer back to such a block
(`Material.load_link_iff`); a ring that nothing else feeds is left unlinked
(`Material.ring_links_dropped`). A document that is merged is walked from all of its blocks, and
loses no link.
-/

namespace ShaderGraph

open Relation List ShaderGraph.Graph Option Nat

/-! ## 1. Breadth first search -/

namespace Search

variable {α : Type} [DecidableEq α] {all seen items queue : List α} {next : α → List α} {x y : α}

theorem mem_fresh_iff : x ∈ fresh all seen items ↔ x ∈ items ∧ x ∈ all ∧ x ∉ seen := by
  induction items generalizing seen with
  | nil => simp [fresh]
  | cons n rest ih =>
    by_cases hn : n ∈ all ∧ n ∉ seen
    · rw [fresh, if_pos hn, mem_cons, ih, mem_cons]
      by_cases h : x = n
      · simp [h, hn]
      · simp [h]
    · rw [fresh, if_neg hn, ih, mem_cons]
      refine ⟨fun hx => ⟨.inr hx.1, hx.2⟩, fun hx => ⟨hx.1.resolve_left ?_, hx.2⟩⟩
      rintro rfl
      exact hn hx.2

theorem breadth_cons (all : List α) (next : α → List α) (seen : List α) (n : α) (queue : List α) :
    breadth all next seen (n :: queue) =
      fresh all seen (next n) ++
        breadth all next (fresh all seen (next n) ++ seen) (queue ++ fresh all seen (next n)) := by
  rw [breadth]
  split
  · rename_i found
    simp [found]
  · rename_i found
    simp only [found]

/-- The steps of the search: the successors of the first item join the queue at its end. -/
theorem breadth_induction (all : List α) (next : α → List α) {P : List α → List α → Prop}
    (nil : ∀ seen, P seen [])
    (cons : ∀ seen n queue, P (fresh all seen (next n) ++ seen) (queue ++ fresh all seen (next n)) →
      P seen (n :: queue)) (seen queue : List α) : P seen queue := by
  induction seen, queue using breadth.induct all next with
  | case1 seen => exact nil seen
  | case2 seen n queue found ih =>
    refine cons seen n queue ?_
    rw [found, nil_append, append_nil]
    exact ih
  | case3 seen n queue x rest found _ _ _ ih =>
    refine cons seen n queue ?_
    rw [found]
    exact ih

/-- What is listed is reached from the queue by at least one step. -/
theorem reached_of_mem_breadth (h : x ∈ breadth all next seen queue) :
    x ∈ all ∧ ∃ s ∈ queue, TransGen (fun a b => b ∈ next a) s x := by
  induction seen, queue using breadth_induction all next with
  | nil seen => simp [breadth] at h
  | cons seen n queue ih =>
    rw [breadth_cons, mem_append] at h
    rcases h with h | h
    · obtain ⟨hnext, hall, -⟩ := mem_fresh_iff.mp h
      exact ⟨hall, n, mem_cons_self, .single hnext⟩
    · obtain ⟨hall, s, hs, path⟩ := ih h
      refine ⟨hall, ?_⟩
      rcases mem_append.mp hs with hs | hs
      · exact ⟨s, mem_cons_of_mem _ hs, path⟩
      · exact ⟨n, mem_cons_self, .head (mem_fresh_iff.mp hs).1 path⟩

/-- The successors of the queue, and of what is listed, are listed unless they were seen. -/
theorem mem_breadth_of_mem_next (hy : y ∈ queue ∨ y ∈ breadth all next seen queue)
    (hx : x ∈ next y) (hall : x ∈ all) : x ∈ seen ∨ x ∈ breadth all next seen queue := by
  induction seen, queue using breadth_induction all next with
  | nil seen => simp [breadth] at hy
  | cons seen n queue ih =>
    rw [breadth_cons, mem_append] at hy ⊢
    have later : y ∈ queue ++ fresh all seen (next n) ∨
        y ∈ breadth all next (fresh all seen (next n) ++ seen) (queue ++ fresh all seen (next n)) →
        x ∈ seen ∨ x ∈ fresh all seen (next n) ∨ x ∈ breadth all next
          (fresh all seen (next n) ++ seen) (queue ++ fresh all seen (next n)) := by
      intro hy
      rcases ih hy with hx | hx
      · exact (mem_append.mp hx).elim (fun hx => .inr (.inl hx)) .inl
      · exact .inr (.inr hx)
    rcases hy with hy | hy | hy
    · rcases mem_cons.mp hy with rfl | hy
      · by_cases hseen : x ∈ seen
        · exact .inl hseen
        · exact .inr (.inl (mem_fresh_iff.mpr ⟨hx, hall, hseen⟩))
      · exact later (.inl (mem_append_left _ hy))
    · exact later (.inl (mem_append_right _ hy))
    · exact later (.inr hy)

theorem nodup_fresh (all seen items : List α) : (fresh all seen items).Nodup := by
  induction items generalizing seen with
  | nil => exact nodup_nil
  | cons n rest ih =>
    unfold fresh
    split
    · exact nodup_cons.mpr ⟨fun h => (mem_fresh_iff.mp h).2.2 mem_cons_self, ih _⟩
    · exact ih seen

/-- Nothing is listed twice, and nothing that was seen. -/
theorem nodup_breadth (all : List α) (next : α → List α) (seen queue : List α) :
    (breadth all next seen queue).Nodup ∧ ∀ x ∈ breadth all next seen queue, x ∉ seen := by
  induction seen, queue using breadth_induction all next with
  | nil seen => simp [breadth]
  | cons seen n queue ih =>
    rw [breadth_cons, nodup_append]
    refine ⟨⟨nodup_fresh _ _ _, ih.1, ?_⟩, fun x hx => ?_⟩
    · rintro x hx y hy rfl
      exact ih.2 x hy (mem_append_left _ hx)
    · rcases mem_append.mp hx with hx | hx
      · exact (mem_fresh_iff.mp hx).2.2
      · exact fun seen => ih.2 x hx (mem_append_right _ seen)

end Search

/-! ## 2. The blocks whose links are restored -/

namespace Document

variable {d : Document} {b : BlockEntry} {x y : Nat} {merge : Bool}

/-- A chain of links leads from a block back to one without links. -/
inductive Grounded (d : Document) : Nat → Prop
  | leaf {b : BlockEntry} : b ∈ d.blocks → b.links = [] → Grounded d b.id
  | fed {b : BlockEntry} {l : LinkEntry} : b ∈ d.blocks → l ∈ b.links → Grounded d l.target →
      Grounded d b.id

theorem repeated?_eq_none_iff {seen : List Nat} {blocks : List BlockEntry} :
    repeated? seen blocks = none ↔
      (blocks.map BlockEntry.id).Nodup ∧ ∀ b ∈ blocks, b.id ∉ seen := by
  induction blocks generalizing seen with
  | nil => simp [repeated?]
  | cons b rest ih =>
    unfold repeated?
    by_cases h : b.id ∈ seen
    · simp [h]
    · rw [if_neg h, ih, List.map_cons, List.nodup_cons, List.forall_mem_cons]
      simp only [List.mem_cons, not_or, List.mem_map, not_exists, not_and]
      constructor
      · rintro ⟨distinct, apart⟩
        exact ⟨⟨fun c hc => (apart c hc).1, distinct⟩, h, fun c hc => (apart c hc).2⟩
      · rintro ⟨⟨apart, distinct⟩, -, unseen⟩
        exact ⟨distinct, fun c hc => ⟨apart c hc, unseen c hc⟩⟩

/-- The references of a document are right. -/
structure Referring (d : Document) : Prop where
  distinct : d.ids.Nodup
  targets : ∀ b ∈ d.blocks, ∀ l ∈ b.links, l.target ∈ d.ids
  outputs : ∀ id ∈ d.outputs, id ∈ d.ids

theorem fault?_eq_none_iff : d.fault? = none ↔ d.Referring := by
  unfold fault?
  rw [head?_eq_none_iff, append_eq_nil_iff, append_eq_nil_iff, map_eq_nil_iff,
    map_eq_nil_iff, toList_eq_nil_iff, repeated?_eq_none_iff, flatMap_eq_nil_iff,
    filter_eq_nil_iff]
  constructor
  · rintro ⟨⟨⟨distinct, -⟩, targets⟩, outputs⟩
    refine ⟨distinct, fun b hb l hl => ?_, fun id hid => by simpa using outputs id hid⟩
    have none := filter_eq_nil_iff.mp (map_eq_nil_iff.mp (targets b hb)) l hl
    simpa using none
  · rintro ⟨distinct, targets, outputs⟩
    refine ⟨⟨⟨distinct, fun b _ => not_mem_nil⟩, fun b hb => ?_⟩, fun id hid => ?_⟩
    · rw [map_eq_nil_iff, filter_eq_nil_iff]
      intro l hl
      simpa using targets b hb l hl
    · simpa using outputs id hid

theorem Referring.find?_eq_some_iff (hd : d.Referring) {id : Nat} :
    d.blocks.find? (fun b => b.id == id) = some b ↔ b ∈ d.blocks ∧ b.id = id := by
  constructor
  · intro h
    exact ⟨mem_of_find?_eq_some h, by simpa using find?_some h⟩
  · rintro ⟨hb, rfl⟩
    cases h : d.blocks.find? (fun c => c.id == b.id) with
    | none => simpa using find?_eq_none.mp h b hb
    | some c =>
      have same : c.id = b.id := by simpa using find?_some h
      rw [inj_on_of_nodup_map hd.distinct (mem_of_find?_eq_some h) hb same]

theorem mem_consumers_iff :
    y ∈ d.consumers x ↔ ∃ b ∈ d.blocks, b.id = y ∧ ∃ l ∈ b.links, l.target = x := by
  simp only [consumers, List.mem_map, List.mem_filter, List.any_eq_true, beq_iff_eq]
  constructor
  · rintro ⟨b, ⟨hb, hl⟩, rfl⟩
    exact ⟨b, hb, rfl, hl⟩
  · rintro ⟨b, hb, rfl, hl⟩
    exact ⟨b, ⟨hb, hl⟩, rfl⟩

def starts (d : Document) (merge : Bool) : List Nat :=
  (d.blocks.filter fun b => merge || b.links.isEmpty).map BlockEntry.id

theorem mem_starts_iff :
    x ∈ d.starts merge ↔ ∃ b ∈ d.blocks, b.id = x ∧ (merge = true ∨ b.links = []) := by
  simp only [starts, List.mem_map, List.mem_filter, Bool.or_eq_true, List.isEmpty_iff]
  constructor
  · rintro ⟨b, ⟨hb, h⟩, rfl⟩
    exact ⟨b, hb, rfl, h⟩
  · rintro ⟨b, hb, rfl, h⟩
    exact ⟨b, ⟨hb, h⟩, rfl⟩

theorem Grounded.of_path (hx : d.Grounded x) (path : TransGen (fun a b => b ∈ d.consumers a) x y) :
    d.Grounded y := by
  have onward : ∀ {a b}, d.Grounded a → b ∈ d.consumers a → d.Grounded b := by
    intro a b ha hb
    obtain ⟨c, hc, rfl, l, hl, rfl⟩ := mem_consumers_iff.mp hb
    exact .fed hc hl ha
  induction path with
  | single h => exact onward hx h
  | tail _ h ih => exact onward ih h

/-- The search lists every block that has a link to where it has been. -/
theorem mem_breadth_of_link {queue : List Nat} {l : LinkEntry} (hb : b ∈ d.blocks)
    (hl : l ∈ b.links)
    (h : l.target ∈ queue ∨ l.target ∈ Search.breadth d.ids d.consumers [] queue) :
    b.id ∈ Search.breadth d.ids d.consumers [] queue :=
  (Search.mem_breadth_of_mem_next h (mem_consumers_iff.mpr ⟨b, hb, rfl, l, hl, rfl⟩)
    (mem_map_of_mem hb)).resolve_left not_mem_nil

theorem Grounded.mem_breadth (hx : d.Grounded x) (merge : Bool) :
    x ∈ d.starts merge ∨ x ∈ Search.breadth d.ids d.consumers [] (d.starts merge) := by
  induction hx with
  | leaf hb leaf => exact .inl (mem_starts_iff.mpr ⟨_, hb, rfl, .inr leaf⟩)
  | fed hb hl _ ih => exact .inr (mem_breadth_of_link hb hl ih)

/-- Links are restored for the blocks that a chain of links grounds, and for all if the document is
merged. -/
theorem Referring.mem_restoreOrder_iff (hd : d.Referring) : b ∈ d.restoreOrder merge ↔
      b ∈ d.blocks ∧ b.links ≠ [] ∧ (merge = true ∨ d.Grounded b.id) := by
  have unique : ∀ {c : BlockEntry}, b ∈ d.blocks → c ∈ d.blocks → c.id = b.id → c = b :=
    fun hb hc same => inj_on_of_nodup_map hd.distinct hc hb same
  have listed : b ∈ d.restoreOrder merge ↔
      b ∈ d.blocks ∧ b.id ∈ Search.breadth d.ids d.consumers [] (d.starts merge) := by
    unfold restoreOrder
    simp only [mem_filterMap, hd.find?_eq_some_iff]
    constructor
    · rintro ⟨x, hx, hb, rfl⟩
      exact ⟨hb, hx⟩
    · rintro ⟨hb, hx⟩
      exact ⟨b.id, hx, hb, rfl⟩
  rw [listed]
  constructor
  · rintro ⟨hb, hx⟩
    obtain ⟨-, s, hs, path⟩ := Search.reached_of_mem_breadth hx
    refine ⟨hb, ?_, ?_⟩
    · obtain ⟨y, -, hy⟩ := TransGen.tail'_iff.mp path
      obtain ⟨c, hc, same, l, hl, -⟩ := mem_consumers_iff.mp hy
      rw [← unique hb hc same]
      exact ne_nil_of_mem hl
    · obtain ⟨c, hc, rfl, h⟩ := mem_starts_iff.mp hs
      exact h.imp_right fun leaf => Grounded.of_path (.leaf hc leaf) path
  · rintro ⟨hb, hlinks, h⟩
    refine ⟨hb, ?_⟩
    obtain ⟨l, hl⟩ := exists_mem_of_ne_nil _ hlinks
    have merging : merge = true →
        b.id ∈ Search.breadth d.ids d.consumers [] (d.starts merge) := by
      intro merging
      obtain ⟨c, hc, hct⟩ := mem_map.mp (hd.targets b hb l hl)
      exact mem_breadth_of_link hb hl (.inl (mem_starts_iff.mpr ⟨c, hc, hct, .inl merging⟩))
    rcases h with h | grounded
    · exact merging h
    · rcases grounded.mem_breadth merge with start | reached
      · obtain ⟨c, hc, same, h⟩ := mem_starts_iff.mp start
        exact h.elim merging fun leaf => absurd (unique hb hc same ▸ leaf) hlinks
      · exact reached

end Document

/-! ## 3. Loads that succeed -/

namespace Load

variable {α β : Type} {m m' : Material} {r : Registry} {ids : IdMap} {b : BlockEntry} {u : PUnit}

/-- A part of a load that succeeds. -/
def Gives (l : Load α) (m : Material) (a : α) (m' : Material) : Prop := l.run.run m = (.ok a, m')

theorem gives_pure_iff {a a' : α} : Gives (pure a : Load α) m a' m' ↔ a' = a ∧ m' = m := by
  constructor
  · intro h
    obtain ⟨ha, hm⟩ := Prod.mk.inj h
    exact ⟨(Except.ok.inj ha).symm, hm.symm⟩
  · rintro ⟨rfl, rfl⟩
    rfl

theorem gives_bind_iff {l : Load α} {next : α → Load β} {c : β} :
    Gives (l >>= next) m c m' ↔ ∃ a m₁, Gives l m a m₁ ∧ Gives (next a) m₁ c m' := by
  unfold Gives
  rw [ExceptT.run_bind, StateT.run_bind]
  cases hr : l.run.run m with
  | mk result m₁ =>
    cases result with
    | error e =>
      refine ⟨fun h => ?_, ?_⟩
      · cases (Prod.mk.inj h).1
      · rintro ⟨a, m₂, h, -⟩
        cases (Prod.mk.inj h).1
    | ok a =>
      constructor
      · exact fun h => ⟨a, m₁, rfl, h⟩
      · rintro ⟨a', m₂, h, h'⟩
        obtain ⟨ha, rfl⟩ := Prod.mk.inj h
        rw [← Except.ok.inj ha] at h'
        exact h'

theorem not_gives_throw {e : LoadError} {a : α} : ¬Gives (throw e : Load α) m a m' :=
  fun h => nomatch (Prod.mk.inj h).1

theorem gives_get_bind_iff {next : Material → Load β} {c : β} :
    Gives (get >>= next) m c m' ↔ Gives (next m) m c m' := Iff.rfl

theorem gives_set_iff {n : Material} : Gives (set n : Load PUnit) m u m' ↔ m' = n := by
  constructor
  · intro h
    exact (Prod.mk.inj h).2.symm
  · rintro rfl
    rfl

theorem gives_onGraph_iff {wrap : GraphError → LoadError} {f : Graph → Except GraphError Graph}
    {u : Unit} :
    Gives (onGraph wrap f) m u m' ↔ ∃ g, f m.graph = .ok g ∧ m' = { m with graph := g } := by
  unfold onGraph
  rw [gives_get_bind_iff]
  cases hf : f m.graph with
  | error e =>
    refine ⟨fun h => absurd h not_gives_throw, ?_⟩
    rintro ⟨g, hg, -⟩
    cases hg
  | ok g =>
    refine gives_set_iff.trans ⟨fun h => ⟨g, rfl, h⟩, ?_⟩
    rintro ⟨g', hg, h⟩
    rw [h, Except.ok.inj hg]

theorem gives_forM_cons_iff {f : α → Load PUnit} {a : α} {rest : List α} :
    Gives ((a :: rest).forM f) m u m' ↔
      ∃ m₁, Gives (f a) m ⟨⟩ m₁ ∧ Gives (rest.forM f) m₁ u m' := by
  refine gives_bind_iff.trans ?_
  constructor
  · rintro ⟨⟨⟩, m₁, h⟩
    exact ⟨m₁, h⟩
  · rintro ⟨m₁, h⟩
    exact ⟨⟨⟩, m₁, h⟩

theorem Gives.forM {P : Material → Prop} {f : α → Load PUnit} {items : List α}
    (h : Gives (items.forM f) m u m') (step : ∀ a ∈ items, ∀ m m', P m → Gives (f a) m ⟨⟩ m' → P m')
    (hm : P m) : P m' := by
  induction items generalizing m with
  | nil =>
    obtain ⟨-, rfl⟩ := gives_pure_iff.mp h
    exact hm
  | cons a rest ih =>
    obtain ⟨m₁, h₁, h⟩ := gives_forM_cons_iff.mp h
    exact ih h (fun a ha => step a (mem_cons_of_mem _ ha))
      (step a mem_cons_self m m₁ hm h₁)

theorem gives_addBlock_iff {p : Nat × BlockId} :
    Gives (addBlock r b) m p m' ↔ ∃ kind, kindOf r b = .ok kind ∧
      p = (b.id, m.graph.freshId) ∧ m' = { m with
        graph := (m.graph.insert b.name kind).modify m.graph.freshId
          ({ · with comments := b.comments }) } := by
  unfold addBlock
  cases hk : kindOf r b with
  | error e =>
    constructor
    · intro h
      cases (Prod.mk.inj h).1
    · rintro ⟨kind, h, -⟩
      cases h
  | ok kind =>
    constructor
    · intro h
      obtain ⟨hp, hm⟩ := Prod.mk.inj h
      exact ⟨kind, rfl, (Except.ok.inj hp).symm, hm.symm⟩
    · rintro ⟨kind', h, rfl, rfl⟩
      cases h
      rfl

end Load

/-! ## 4. Adding the blocks -/

theorem Registry.mem_of_create {r : Registry} {tag : String} {k : Kind} (h : r.create tag = .ok k) :
    (tag, k) ∈ r.entries := by
  rw [create] at h
  split at h
  · rename_i k' found
    rw [← Except.ok.inj h]
    exact Keyed.mem_of_get? found
  · cases h

/-- The block that is made for an entry of a document. -/
def BlockEntry.block (b : BlockEntry) (id : BlockId) (kind : Kind) : Block :=
  { Block.new id b.name kind with comments := b.comments }

namespace Graph

/-- Identities are distinct and behind the counter. -/
structure Counted (g : Graph) : Prop where
  distinct : g.ids.Nodup
  numbered : ∀ x ∈ g.ids, x.index < g.nextId

variable {g : Graph}

theorem Proper.counted (hg : g.Proper) : g.Counted := ⟨hg.coherent.distinct, hg.numbered⟩

theorem Counted.freshId_not_mem (hg : g.Counted) : g.freshId ∉ g.ids :=
  fun h => lt_irrefl _ (hg.numbered _ h)

def withEntryBlock (g : Graph) (b : BlockEntry) (kind : Kind) : Graph :=
  (g.insert b.name kind).modify g.freshId ({ · with comments := b.comments })

theorem get?_withEntryBlock (hg : g.Counted) (b : BlockEntry) (kind : Kind) (x : BlockId) :
    (g.withEntryBlock b kind).get? x =
      if x = g.freshId then some (b.block x kind) else g.get? x := by
  unfold withEntryBlock
  rw [get?_modify, get?_insert]
  by_cases hx : x = g.freshId
  · subst hx
    rw [if_pos rfl, if_pos rfl, if_pos rfl, get?_eq_none_iff.mpr hg.freshId_not_mem]
    rfl
  · rw [if_neg hx, if_neg hx, if_neg hx, or_none]

theorem ids_withEntryBlock (g : Graph) (b : BlockEntry) (kind : Kind) :
    (g.withEntryBlock b kind).ids = g.ids ++ [g.freshId] := by
  unfold withEntryBlock
  rw [ids_modify .., ids_insert]

theorem Counted.push {g' : Graph} (hg : g.Counted) (ids : g'.ids = g.ids ++ [g.freshId])
    (counter : g'.nextId = g.nextId + 1) : g'.Counted where
  distinct := by
    rw [ids, nodup_append]
    refine ⟨hg.distinct, nodup_singleton _, fun x hx y hy heq => ?_⟩
    rw [mem_singleton.mp hy] at heq
    exact hg.freshId_not_mem (heq ▸ hx)
  numbered x hx := by
    rw [counter]
    rw [ids, mem_append, mem_singleton] at hx
    rcases hx with hx | rfl
    · exact lt_succ_of_lt (hg.numbered x hx)
    · exact lt_succ_self _

theorem Counted.withEntryBlock (hg : g.Counted) (b : BlockEntry) (kind : Kind) :
    (g.withEntryBlock b kind).Counted :=
  hg.push (g.ids_withEntryBlock b kind) rfl

end Graph

namespace Load

variable {m m' m₁ : Material} {r : Registry} {ids : IdMap} {b : BlockEntry}
  {entries : List BlockEntry}

/-- What the adding of blocks does. -/
structure Added (r : Registry) (entries : List BlockEntry) (m : Material) (ids : IdMap)
    (m' : Material) : Prop where
  frame : m' = { m with graph := m'.graph }
  counted : m'.graph.Counted
  keys : ids.map Prod.fst = entries.map BlockEntry.id
  values : m'.graph.ids = m.graph.ids ++ ids.map Prod.snd
  old : ∀ x b, m.graph.get? x = some b → m'.graph.get? x = some b
  made : ∀ b ∈ entries, ∃ x kind, ids.lookup b.id = some x ∧ kindOf r b = .ok kind ∧
    m'.graph.get? x = some (b.block x kind)

theorem added_of_gives (hm : m.graph.Counted) (distinct : (entries.map BlockEntry.id).Nodup)
    (h : Gives (entries.mapM (addBlock r)) m ids m') : Added r entries m ids m' := by
  induction entries generalizing m ids with
  | nil =>
    obtain ⟨rfl, rfl⟩ := gives_pure_iff.mp h
    exact ⟨rfl, hm, rfl, (append_nil _).symm, fun _ _ h => h, nofun⟩
  | cons b rest ih =>
    rw [mapM_cons] at h
    obtain ⟨p, m₁, h₁, h⟩ := gives_bind_iff.mp h
    obtain ⟨kind, hkind, rfl, hm₁⟩ := gives_addBlock_iff.mp h₁
    obtain ⟨ids', m₂, h₂, h⟩ := gives_bind_iff.mp h
    obtain ⟨rfl, rfl⟩ := gives_pure_iff.mp h
    have hgraph : m₁.graph = m.graph.withEntryBlock b kind := by rw [hm₁]; rfl
    rw [map_cons, nodup_cons] at distinct
    have later := ih (hgraph ▸ hm.withEntryBlock b kind) distinct.2 h₂
    constructor
    case frame =>
      rw [later.frame, hm₁]
    case counted => exact later.counted
    case keys => rw [map_cons, map_cons, later.keys]
    case values =>
      rw [later.values, hgraph, ids_withEntryBlock, append_assoc]
      rfl
    case old =>
      intro x c hc
      refine later.old x c ?_
      rw [hgraph, get?_withEntryBlock hm, if_neg, hc]
      rintro rfl
      exact hm.freshId_not_mem (mem_ids_iff.mpr ⟨c, hc⟩)
    case made =>
      intro c hc
      rcases mem_cons.mp hc with rfl | hc
      · refine ⟨m.graph.freshId, kind, lookup_cons_self, hkind, later.old _ _ ?_⟩
        rw [hgraph, get?_withEntryBlock hm, if_pos rfl]
      · obtain ⟨x, kind', hx, hkind', hget⟩ := later.made c hc
        refine ⟨x, kind', ?_, hkind', hget⟩
        have apart : c.id ≠ b.id := fun same =>
          distinct.1 (same ▸ mem_map_of_mem (f := BlockEntry.id) hc)
        rw [lookup_cons, beq_false_of_ne apart]
        exact hx

theorem mem_of_lookup {a : Nat} {x : BlockId} (h : ids.lookup a = some x) : (a, x) ∈ ids := by
  obtain ⟨before, after, rfl, -⟩ := lookup_eq_some_iff.mp h
  exact mem_append_right _ mem_cons_self

namespace Added

variable {x : BlockId} {a a' : Nat} (h : Added r entries m ids m')
include h

theorem nodup_values : (ids.map Prod.snd).Nodup := by
  have all := h.counted.distinct
  rw [h.values] at all
  exact (nodup_append.mp all).2.1

theorem lookup_inj (ha : ids.lookup a = some x) (ha' : ids.lookup a' = some x) : a = a' :=
  congrArg Prod.fst
    (inj_on_of_nodup_map h.nodup_values (mem_of_lookup ha) (mem_of_lookup ha') rfl)

theorem mem_ids (hx : x ∈ ids.map Prod.snd) : x ∈ m'.graph.ids := by
  rw [h.values]
  exact mem_append_right _ hx

theorem isSome_lookup_iff : (ids.lookup a).isSome = true ↔ a ∈ entries.map BlockEntry.id := by
  constructor
  · intro known
    obtain ⟨y, hy⟩ := isSome_iff_exists.mp known
    rw [← h.keys]
    exact mem_map_of_mem (mem_of_lookup hy)
  · intro here
    obtain ⟨b, hb, rfl⟩ := mem_map.mp here
    obtain ⟨y, -, hy, -⟩ := h.made b hb
    rw [hy]
    rfl

end Added

end Load

/-! ## 5. Teleports -/

/-- The kind of a block after its teleport was restored. -/
def Kind.resolved (ids : IdMap) (k : Kind) : Kind :=
  match k.takePending.1 with
  | none => k.takePending.2
  | some entry => k.takePending.2.setTeleportEntry (ids.lookup entry)

@[simp]
theorem Kind.resolved_resolved (ids : IdMap) (k : Kind) :
    (k.resolved ids).resolved ids = k.resolved ids := by
  cases k with
  | teleportOut t =>
    unfold Kind.resolved
    cases hp : t.pending <;> simp [Kind.takePending, hp, Kind.setTeleportEntry]
  | _ => rfl

namespace Load

variable {m m' : Material} {r : Registry} {ids : IdMap} {b : BlockEntry} {c : Block} {x : BlockId}
  {entries : List BlockEntry} {u : Unit} {xs : List BlockId}

theorem gives_restoreTeleport_iff (hx : ids.lookup b.id = some x) (hc : m.graph.get? x = some c) :
    Gives (restoreTeleport ids b) m u m' ↔
      ∃ g, m' = { m with graph := g } ∧
        match c.kind.takePending.1 with
        | none => g = m.graph.modify x fun c => { c with kind := c.kind.takePending.2 }
        | some entry => ∃ y, ids.lookup entry = some y ∧
            (m.graph.modify x fun c => { c with kind := c.kind.takePending.2 }).setTeleportEntry x
              (some y) = .ok g := by
  unfold restoreTeleport
  simp only [hx]
  rw [gives_get_bind_iff]
  simp only [hc, bind_some]
  rw [gives_bind_iff]
  cases hp : c.kind.takePending.1 with
  | none =>
    constructor
    · rintro ⟨_, m₁, hset, h⟩
      obtain ⟨-, rfl⟩ := gives_pure_iff.mp h
      exact ⟨_, gives_set_iff.mp hset, rfl⟩
    · rintro ⟨g, rfl, rfl⟩
      exact ⟨⟨⟩, _, gives_set_iff.mpr rfl, gives_pure_iff.mpr ⟨rfl, rfl⟩⟩
  | some entry =>
    cases hy : ids.lookup entry with
    | none =>
      simp only [hy]
      constructor
      · rintro ⟨-, m₁, -, h⟩
        exact absurd h not_gives_throw
      · rintro ⟨g, -, y, hy, -⟩
        cases hy
    | some y =>
      simp only [hy]
      constructor
      · rintro ⟨_, m₁, hset, h⟩
        obtain rfl := gives_set_iff.mp hset
        obtain ⟨g, hg, rfl⟩ := gives_onGraph_iff.mp h
        exact ⟨g, rfl, y, rfl, hg⟩
      · rintro ⟨g, rfl, y', hy, hg⟩
        cases hy
        exact ⟨⟨⟩, _, gives_set_iff.mpr rfl, gives_onGraph_iff.mpr ⟨g, hg, rfl⟩⟩

/-- The graph after the teleports of some blocks were restored. -/
structure Teleported (ids : IdMap) (xs : List BlockId) (m m' : Material) : Prop where
  frame : m' = { m with graph := m'.graph }
  ids_eq : m'.graph.ids = m.graph.ids
  counter : m'.graph.nextId = m.graph.nextId
  get? : ∀ y, m'.graph.get? y = (m.graph.get? y).map fun c =>
    if y ∈ xs then { c with kind := c.kind.resolved ids } else c

theorem teleported_of_gives (hx : ids.lookup b.id = some x) (hc : m.graph.get? x = some c)
    (h : Gives (restoreTeleport ids b) m u m') : Teleported ids [x] m m' := by
  obtain ⟨g, rfl, change⟩ := (gives_restoreTeleport_iff hx hc).mp h
  cases hp : c.kind.takePending.1 with
  | none =>
    simp only [hp] at change
    subst change
    refine ⟨rfl, ids_modify .., rfl, fun y => ?_⟩
    rw [get?_modify]
    by_cases hy : y = x
    · simp [hy, hc, Kind.resolved, hp]
    · simp [hy]
  | some entry =>
    simp only [hp] at change
    obtain ⟨z, hz, change⟩ := change
    obtain ⟨-, rfl⟩ := setTeleportEntry_eq_ok_iff.mp change
    refine ⟨rfl, ?_, rfl, fun y => ?_⟩
    · exact (ids_withEntry _ _ _).trans (ids_modify ..)
    · dsimp only [Graph.withEntry]
      rw [get?_modify, get?_modify]
      by_cases hy : y = x
      · simp [hy, hc, Kind.resolved, hp, hz]
      · simp [hy]

theorem Teleported.trans {ys : List BlockId} {m₁ : Material} (h : Teleported ids xs m m₁)
    (h' : Teleported ids ys m₁ m') : Teleported ids (xs ++ ys) m m' where
  frame := by rw [h'.frame, h.frame]
  ids_eq := h'.ids_eq.trans h.ids_eq
  counter := h'.counter.trans h.counter
  get? y := by
    rw [h'.get?, h.get?, Option.map_map]
    congr 1
    funext c
    by_cases hx : y ∈ xs <;> by_cases hy : y ∈ ys <;> simp [hx, hy]

theorem teleported_of_gives_forM (hxs : entries.map (fun b => ids.lookup b.id) = xs.map some)
    (hm : ∀ x ∈ xs, x ∈ m.graph.ids) (h : Gives (entries.forM (restoreTeleport ids)) m u m') :
    Teleported ids xs m m' := by
  induction entries generalizing m xs with
  | nil =>
    obtain ⟨-, rfl⟩ := gives_pure_iff.mp h
    obtain rfl := map_eq_nil_iff.mp hxs.symm
    exact ⟨rfl, rfl, rfl, fun y => by simp⟩
  | cons b rest ih =>
    obtain ⟨m₁, h₁, h⟩ := gives_forM_cons_iff.mp h
    cases xs with
    | nil => cases hxs
    | cons x xs =>
      obtain ⟨hx, hxs⟩ := List.cons.inj hxs
      rw [forall_mem_cons] at hm
      obtain ⟨c, hc⟩ := mem_ids_iff.mp hm.1
      have first := teleported_of_gives hx hc h₁
      exact first.trans (ih hxs (fun y hy => first.ids_eq ▸ hm.2 y hy) h)

end Load

/-! ## 6. Links -/

namespace Block

/-- A block without its links and without what a pass gave to it. -/
structure Face where
  id : BlockId
  name : String
  comments : String
  kind : Kind
  inputs : List SocketSpec
  outputs : List SocketSpec

def face (b : Block) : Face where
  id := b.id
  name := b.name
  comments := b.comments
  kind := b.kind
  inputs := b.inputs.map InputSocket.spec
  outputs := b.outputs.map OutputSocket.spec

variable {b b' : Block}

theorem inputIndex?_of_specs (h : b'.inputs.map InputSocket.spec = b.inputs.map InputSocket.spec)
    (name : String) : b'.inputIndex? name = b.inputIndex? name := by
  have view : ∀ b : Block, b.inputIndex? name =
      (b.inputs.map InputSocket.spec).findIdx? fun spec => spec.name == name := by
    intro b
    rw [findIdx?_map]
    rfl
  rw [view, view, h]

theorem outputIndex?_of_specs
    (h : b'.outputs.map OutputSocket.spec = b.outputs.map OutputSocket.spec) (name : String) :
    b'.outputIndex? name = b.outputIndex? name := by
  have view : ∀ b : Block, b.outputIndex? name =
      (b.outputs.map OutputSocket.spec).findIdx? fun spec => spec.name == name := by
    intro b
    rw [findIdx?_map]
    rfl
  rw [view, view, h]

theorem unjoined_face : Unjoined face where
  setLink b i _ :=
    congrArg (fun inputs => { b.face with inputs }) (map_modify_of_keeps b.inputs i (by intro; rfl))
  modifyOutput b i _ keeps :=
    congrArg (fun outputs => { b.face with outputs }) (map_modify_of_keeps b.outputs i keeps)

end Block

namespace Graph

variable {g g' : Graph} {source target : BlockId} {output input : String} {i j : Nat}

/-- The places of names are a matter of faces. -/
theorem Placed.of_faces (h : ∀ x, (g'.get? x).map Block.face = (g.get? x).map Block.face)
    (hp : g.Placed source output target input i j) : g'.Placed source output target input i j := by
  have back : ∀ {x b}, g.get? x = some b → ∃ b', g'.get? x = some b' ∧ b'.face = b.face := by
    intro x b hb
    have same := h x
    rw [hb, map_some, map_eq_some_iff] at same
    exact same
  obtain ⟨⟨p, hp, hi⟩, c, hc, hj⟩ := hp
  obtain ⟨p', hp', hpf⟩ := back hp
  obtain ⟨c', hc', hcf⟩ := back hc
  refine ⟨⟨p', hp', ?_⟩, c', hc', ?_⟩
  · rw [Block.outputIndex?_of_specs (congrArg Block.Face.outputs hpf)]
    exact hi
  · rw [Block.inputIndex?_of_specs (congrArg Block.Face.inputs hcf)]
    exact hj

/-- The output of a name feeds the input of a name. -/
def Feeds (g : Graph) (source : BlockId) (output : String) (target : BlockId) (input : String) :
    Prop :=
  ∃ i j, g.Placed source output target input i j ∧ g.source? ⟨target, j⟩ = some ⟨source, i⟩

end Graph

namespace Load

variable {m m' m₁ : Material} {ids : IdMap} {W W' : BlockId → String → BlockId → String → Prop}
  {u : PUnit} {d : Document} {r : Registry} {merge : Bool} {a : Nat} {x : BlockId}
  {entries : List BlockEntry}

/-- What the restoring of the links `W` does. -/
structure Relinked (W : BlockId → String → BlockId → String → Prop) (m m' : Material) : Prop where
  frame : m' = { m with graph := m'.graph }
  ids_eq : m'.graph.ids = m.graph.ids
  counter : m'.graph.nextId = m.graph.nextId
  faces : ∀ x, (m'.graph.get? x).map Block.face = (m.graph.get? x).map Block.face
  kept : ∀ r s, m.graph.source? r = some s → m'.graph.source? r = some s
  made : ∀ source output target input, W source output target input →
    m'.graph.Feeds source output target input
  only : ∀ r s, m'.graph.source? r = some s → m.graph.source? r = some s ∨
    ∃ output input, W s.block output r.block input ∧
      m'.graph.Placed s.block output r.block input s.index r.index

namespace Relinked

theorem refl (m : Material) : Relinked (fun _ _ _ _ => False) m m :=
  ⟨rfl, rfl, rfl, fun _ => rfl, fun _ _ h => h, fun _ _ _ _ h => h.elim, fun _ _ h => .inl h⟩

theorem congr (h : Relinked W m m') (same : ∀ p o c i, W p o c i ↔ W' p o c i) :
    Relinked W' m m' := by
  have eq : W = W' := by
    funext p o c i
    exact propext (same p o c i)
  exact eq ▸ h

theorem trans (h : Relinked W m m₁) (h' : Relinked W' m₁ m') :
    Relinked (fun p o c i => W p o c i ∨ W' p o c i) m m' where
  frame := by rw [h'.frame, h.frame]
  ids_eq := h'.ids_eq.trans h.ids_eq
  counter := h'.counter.trans h.counter
  faces x := (h'.faces x).trans (h.faces x)
  kept r s hr := h'.kept r s (h.kept r s hr)
  made p o c i hw := by
    rcases hw with hw | hw
    · obtain ⟨j, k, placed, source⟩ := h.made p o c i hw
      exact ⟨j, k, placed.of_faces h'.faces, h'.kept _ _ source⟩
    · exact h'.made p o c i hw
  only r s hr := by
    rcases h'.only r s hr with hr | ⟨o, i, hw, placed⟩
    · rcases h.only r s hr with hr | ⟨o, i, hw, placed⟩
      · exact .inl hr
      · exact .inr ⟨o, i, .inl hw, placed.of_faces h'.faces⟩
    · exact .inr ⟨o, i, .inr hw, placed⟩

end Relinked

/-- The link that an entry of a document asks for. -/
def Wanted (ids : IdMap) (consumer : BlockEntry) (l : LinkEntry) (source : BlockId)
    (output : String) (target : BlockId) (input : String) : Prop :=
  ids.lookup l.target = some source ∧ output = l.output ∧
    ids.lookup consumer.id = some target ∧ input = l.input

theorem relinked_restoreLink {consumer : BlockEntry} {l : LinkEntry} {u : Unit}
    (h : Gives (restoreLink ids consumer l) m u m') : Relinked (Wanted ids consumer l) m m' := by
  unfold restoreLink at h
  split at h
  · rename_i source target hsource htarget
    obtain ⟨g, hg, rfl⟩ := gives_onGraph_iff.mp h
    obtain ⟨i, j, placed, hg⟩ := connectNamed_eq_ok_iff.mp hg
    obtain ⟨⟨out, inp, linkable⟩, -, rfl⟩ := connect_eq_ok_iff.mp hg
    have sources := source?_link (s := ⟨source, i⟩) linkable.input_eq
    have placed' := placed.of_faces (map_link Block.unjoined_face m.graph ⟨source, i⟩ ⟨target, j⟩)
    constructor
    case frame => rfl
    case ids_eq => exact ids_link _ _ _
    case counter => rfl
    case faces => exact map_link Block.unjoined_face m.graph _ _
    case kept =>
      intro r s hr
      rw [sources, if_neg, hr]
      rintro rfl
      rw [Graph.source?, linkable.input_eq] at hr
      rw [bind_some, linkable.free] at hr
      cases hr
    case made =>
      rintro p o c k ⟨hp, rfl, hc, rfl⟩
      cases hsource.symm.trans hp
      cases htarget.symm.trans hc
      refine ⟨i, j, placed', ?_⟩
      rw [sources, if_pos rfl]
    case only =>
      intro r s hr
      rw [sources] at hr
      split at hr
      · rename_i hr'
        cases hr
        subst hr'
        exact .inr ⟨_, _, ⟨hsource, rfl, htarget, rfl⟩, placed'⟩
      · exact .inl hr
  · rename_i missing
    obtain ⟨-, rfl⟩ := gives_pure_iff.mp h
    refine (Relinked.refl m').congr fun p o c i => ⟨False.elim, ?_⟩
    rintro ⟨hp, -, hc, -⟩
    exact missing _ _ hp hc

theorem relinked_forM {α : Type} {f : α → Load PUnit} {items : List α}
    {V : α → BlockId → String → BlockId → String → Prop}
    (step : ∀ a m m', Gives (f a) m ⟨⟩ m' → Relinked (V a) m m') (h : Gives (items.forM f) m u m') :
    Relinked (fun p o c i => ∃ a ∈ items, V a p o c i) m m' := by
  induction items generalizing m with
  | nil =>
    obtain ⟨-, rfl⟩ := gives_pure_iff.mp h
    refine (Relinked.refl m').congr fun p o c i => ?_
    simp
  | cons a rest ih =>
    obtain ⟨m₁, h₁, h⟩ := gives_forM_cons_iff.mp h
    refine ((step a m m₁ h₁).trans (ih h)).congr fun p o c i => ?_
    simp

theorem relinked_of_gives {order : List BlockEntry}
    (h : Gives (order.forM fun consumer => consumer.links.forM (restoreLink ids consumer)) m u m') :
    Relinked (fun p o c i => ∃ b ∈ order, ∃ l ∈ b.links, Wanted ids b l p o c i) m m' :=
  relinked_forM (fun _ _ _ h => relinked_forM (fun _ _ _ h => relinked_restoreLink h) h) h

/-! ## 7. A whole load -/

theorem gives_addRoot_iff {output : Nat} {u : Unit} :
    Gives (addRoot ids output) m u m' ↔
      match ids.lookup output with
      | none => m' = m
      | some x => m.addRoot x = .ok m' := by
  unfold addRoot
  cases ids.lookup output with
  | none => exact gives_pure_iff.trans ⟨fun h => h.2, fun h => ⟨rfl, h⟩⟩
  | some x =>
    dsimp only
    rw [gives_get_bind_iff]
    cases m.addRoot x with
    | error e =>
      refine ⟨fun h => absurd h not_gives_throw, fun h => ?_⟩
      cases h
    | ok n =>
      exact gives_set_iff.trans ⟨fun h => by rw [h], fun h => (Except.ok.inj h).symm⟩

theorem frame_addRoots {outputs : List Nat} (h : Gives (outputs.forM (addRoot ids)) m u m') :
    m' = { m with roots := m'.roots } := by
  refine Gives.forM (P := fun n => n = { m with roots := n.roots }) h ?_ rfl
  intro output _ n n' hn h
  rw [gives_addRoot_iff] at h
  split at h
  · rw [h]
    exact hn
  · obtain ⟨b, -, h⟩ := bind_eq_ok_iff.mp h
    split at h
    · rw [← Except.ok.inj h, hn]
    · cases h

def before (d : Document) (merge : Bool) (m : Material) : Material :=
  if merge then m else d.replaceIn m

/-- A load that succeeds goes through four stages. -/
theorem gives_loader_iff : Gives (d.loader r merge) m ids m' ↔ d.Referring ∧ ∃ m₁ m₂ m₃,
      Gives (d.blocks.mapM (addBlock r)) (before d merge m) ids m₁ ∧
      Gives (d.blocks.forM (restoreTeleport ids)) m₁ ⟨⟩ m₂ ∧
      Gives ((d.restoreOrder merge).forM fun consumer =>
        consumer.links.forM (restoreLink ids consumer)) m₂ ⟨⟩ m₃ ∧
      Gives (d.outputs.forM (addRoot ids)) m₃ ⟨⟩ m' := by
  have stages : ∀ n, Gives (do
      let ids ← d.blocks.mapM (addBlock r)
      d.blocks.forM (restoreTeleport ids)
      (d.restoreOrder merge).forM fun consumer => consumer.links.forM (restoreLink ids consumer)
      d.outputs.forM (addRoot ids)
      return ids) n ids m' ↔ ∃ m₁ m₂ m₃,
        Gives (d.blocks.mapM (addBlock r)) n ids m₁ ∧
        Gives (d.blocks.forM (restoreTeleport ids)) m₁ ⟨⟩ m₂ ∧
        Gives ((d.restoreOrder merge).forM fun consumer =>
          consumer.links.forM (restoreLink ids consumer)) m₂ ⟨⟩ m₃ ∧
        Gives (d.outputs.forM (addRoot ids)) m₃ ⟨⟩ m' := by
    intro n
    simp only [gives_bind_iff, gives_pure_iff]
    constructor
    · rintro ⟨_, m₁, h₁, _, m₂, h₂, _, m₃, h₃, _, m₄, h₄, rfl, rfl⟩
      exact ⟨m₁, m₂, m₃, h₁, h₂, h₃, h₄⟩
    · rintro ⟨m₁, m₂, m₃, h₁, h₂, h₃, h₄⟩
      exact ⟨_, m₁, h₁, _, m₂, h₂, _, m₃, h₃, _, m', h₄, rfl, rfl⟩
  rw [← Document.fault?_eq_none_iff]
  unfold Document.loader
  cases hf : d.fault? with
  | some fault =>
    refine ⟨fun h => ?_, fun h => ?_⟩
    · cases (Prod.mk.inj h).1
    · cases h.1
  | none =>
    cases merge with
    | true => exact (stages m).trans ⟨fun h => ⟨rfl, h⟩, fun h => h.2⟩
    | false => exact (stages (d.replaceIn m)).trans ⟨fun h => ⟨rfl, h⟩, fun h => h.2⟩

theorem counted_before (hm : m.graph.Counted) (d : Document) (merge : Bool) :
    (before d merge m).graph.Counted := by
  cases merge with
  | true => exact hm
  | false => exact ⟨nodup_nil, nofun⟩

theorem lookup_of_mem (distinct : (ids.map Prod.fst).Nodup) (h : (a, x) ∈ ids) :
    ids.lookup a = some x := by
  obtain ⟨before, after, rfl⟩ := append_of_mem h
  refine lookup_eq_some_iff.mpr ⟨before, after, rfl, fun p hp => ?_⟩
  rw [map_append, nodup_append] at distinct
  have apart : a ≠ p.1 := fun same =>
    distinct.2.2 p.1 (mem_map_of_mem hp) a (by simp) same.symm
  simp [apart]

theorem lookup_eq_none (h : a ∉ ids.map Prod.fst) : ids.lookup a = none := by
  rw [lookup_eq_none_iff]
  intro p hp
  have other : a ≠ p.1 := fun same => h (same ▸ mem_map_of_mem hp)
  simp [other]

/-- The blocks of a document in their order, by identity. -/
theorem Added.lookups (h : Added r entries m ids m')
    (distinct : (entries.map BlockEntry.id).Nodup) :
    entries.map (fun b => ids.lookup b.id) = (ids.map Prod.snd).map some := by
  rw [← h.keys] at distinct
  have keys : entries.map (fun b => ids.lookup b.id) =
      (ids.map Prod.fst).map fun a => ids.lookup a := by
    rw [h.keys, List.map_map]
    rfl
  rw [keys, List.map_map, List.map_map]
  exact List.map_congr_left fun p hp => lookup_of_mem distinct hp

/-- A load that succeeds has added the blocks, resolved their teleports, made the links of the
blocks that it reached, and added the roots. -/
theorem load_spec (hm : m.graph.Counted) (h : m.load d r merge = (.ok ids, m')) :
    d.Referring ∧ ∃ m₁ m₂ m₃,
      Added r d.blocks (before d merge m) ids m₁ ∧ Teleported ids (ids.map Prod.snd) m₁ m₂ ∧
      Relinked (fun p o c i => ∃ b ∈ d.restoreOrder merge, ∃ l ∈ b.links, Wanted ids b l p o c i)
        m₂ m₃ ∧
      Gives (d.outputs.forM (addRoot ids)) m₃ ⟨⟩ m' := by
  obtain ⟨hd, m₁, m₂, m₃, h₁, h₂, h₃, h₄⟩ := gives_loader_iff.mp h
  have added := added_of_gives (counted_before hm d merge) hd.distinct h₁
  have teleported :=
    teleported_of_gives_forM (added.lookups hd.distinct) (fun _ => added.mem_ids) h₂
  exact ⟨hd, m₁, m₂, m₃, added, teleported, relinked_of_gives h₃, h₄⟩

theorem Teleported.source? {xs : List BlockId} (h : Teleported ids xs m m') (r : SocketRef) :
    m'.graph.source? r = m.graph.source? r := by
  refine Graph.source?_congr (Graph.input?_congr ?_)
  rw [h.get?, Option.map_map]
  congr 1
  split <;> rfl

theorem Added.source?_eq_none (h : Added r entries m ids m') {b : BlockEntry} (hb : b ∈ entries)
    (hx : ids.lookup b.id = some x) (i : Nat) : m'.graph.source? ⟨x, i⟩ = none := by
  obtain ⟨y, kind, hy, -, hget⟩ := h.made b hb
  cases hx.symm.trans hy
  unfold Graph.source? Graph.input?
  rw [hget, bind_some]
  simp only [BlockEntry.block, Block.new, getElem?_map]
  cases kind.inputs[i]? <;> rfl

end Load

namespace Material

variable {m m' : Material} {d : Document} {r : Registry} {ids : IdMap} {b : BlockEntry}
  {l : LinkEntry}

/-- A load that succeeds restores a link of the document exactly if the document is merged or a
chain of links leads from the consumer back to a block without links. -/
theorem load_link_iff (hm : m.Reachable) (merge : Bool) (h : m.load d r merge = (.ok ids, m'))
    (hb : b ∈ d.blocks) (hl : l ∈ b.links) :
    ∃ source target, ids.lookup l.target = some source ∧ ids.lookup b.id = some target ∧
      (m'.graph.Feeds source l.output target l.input ↔ merge = true ∨ d.Grounded b.id) := by
  obtain ⟨hd, m₁, m₂, m₃, added, teleported, relinked, h₄⟩ :=
    Load.load_spec hm.wellFormed.graph.counted h
  have graph : m'.graph = m₃.graph := by rw [Load.frame_addRoots h₄]
  obtain ⟨p, hp, htarget⟩ := List.mem_map.mp (hd.targets b hb l hl)
  obtain ⟨source, -, hsource, -⟩ := added.made p hp
  obtain ⟨target, -, htarget', -⟩ := added.made b hb
  rw [htarget] at hsource
  refine ⟨source, target, hsource, htarget', ?_⟩
  rw [graph]
  constructor
  · rintro ⟨i, j, -, feeds⟩
    rcases relinked.only _ _ feeds with before | ⟨o, k, ⟨c, hc, _, _, wanted⟩, -⟩
    · rw [teleported.source?, added.source?_eq_none hb htarget'] at before
      cases before
    · have same := added.lookup_inj wanted.2.2.1 htarget'
      have restored := hd.mem_restoreOrder_iff.mp hc
      rw [← same]
      exact restored.2.2
  · intro reached
    refine relinked.made _ _ _ _ ⟨b, ?_, l, hl, hsource, rfl, htarget', rfl⟩
    exact hd.mem_restoreOrder_iff.mpr ⟨hb, List.ne_nil_of_mem hl, reached⟩

end Material

namespace Document

/-- A sum of what comes out of a teleport with itself. -/
def chain : Document where
  name := "chain"
  blocks :=
    [{ id := 7, tag := "AddBlock", name := "sum"
       links := [⟨"left", 4, "output"⟩, ⟨"right", 4, "output"⟩] },
      { id := 4, tag := "TeleportOutBlock", name := "out" }]
  outputs := []

def adders : Registry :=
  (Registry.empty.register "AddBlock" (.math .add)).register "TeleportOutBlock" (.teleportOut {})

end Document

namespace Material

open Document (chain adders)

open Load (gives_loader_iff gives_forM_cons_iff gives_onGraph_iff)

/-- The sum and the exit, not linked yet. -/
def sumApart : Graph :=
  (({} : Graph).insert "sum" (.math .add)).insert "out" (.teleportOut {})

/-- Both blocks are made first, then the inputs of the sum are linked one after the other. -/
theorem exists_load_chain : ∃ ids m',
    ({ name := "" } : Material).load chain adders false = (.ok ids, m') := by
  have order : chain.restoreOrder false = chain.blocks.take 1 := by cbv
  let first := sumApart.link ⟨⟨2⟩, 0⟩ ⟨⟨1⟩, 0⟩
  let both := first.link ⟨⟨2⟩, 0⟩ ⟨⟨1⟩, 1⟩
  have left : sumApart.connectNamed ⟨2⟩ "output" ⟨1⟩ "left" = .ok first := by cbv
  have right : first.connectNamed ⟨2⟩ "output" ⟨1⟩ "right" = .ok both := by cbv
  have referring : chain.Referring := Document.fault?_eq_none_iff.mp (by decide)
  let start := chain.replaceIn { name := "" }
  let apart := { start with graph := sumApart }
  let linked := { start with graph := both }
  refine ⟨[(7, ⟨1⟩), (4, ⟨2⟩)], linked,
    gives_loader_iff.mpr ⟨referring, apart, apart, linked, rfl, rfl, ?_, rfl⟩⟩
  rw [order]
  refine gives_forM_cons_iff.mpr ⟨linked, ?_, rfl⟩
  refine gives_forM_cons_iff.mpr ⟨{ start with graph := first }, ?_, ?_⟩
  · show Load.Gives (Load.onGraph _ fun g => g.connectNamed ⟨2⟩ "output" ⟨1⟩ "left") apart ⟨⟩ _
    exact gives_onGraph_iff.mpr ⟨first, left, rfl⟩
  · refine gives_forM_cons_iff.mpr ⟨linked, ?_, rfl⟩
    show Load.Gives (Load.onGraph _ fun g => g.connectNamed ⟨2⟩ "output" ⟨1⟩ "right") _ ⟨⟩ linked
    exact gives_onGraph_iff.mpr ⟨both, right, rfl⟩

theorem chain_links_restored :
    ({ name := "" } : Material).Reachable ∧ ∃ ids m',
      ({ name := "" } : Material).load chain adders false = (.ok ids, m') ∧
      ∀ b ∈ chain.blocks, ∀ l ∈ b.links, ∃ source target, ids.lookup l.target = some source ∧
        ids.lookup b.id = some target ∧ m'.graph.Feeds source l.output target l.input := by
  have reachable : ({ name := "" } : Material).Reachable := .new "" {} 1
  obtain ⟨ids, m', load⟩ := exists_load_chain
  refine ⟨reachable, ids, m', load, fun b hb l hl => ?_⟩
  have out : chain.Grounded 4 :=
    .leaf (b := { id := 4, tag := "TeleportOutBlock", name := "out" })
      (List.mem_cons_of_mem _ List.mem_cons_self) rfl
  have grounded : chain.Grounded b.id := by
    refine .fed hb hl ?_
    have targets : ∀ b ∈ chain.blocks, ∀ l ∈ b.links, l.target = 4 := by decide
    rw [targets b hb l hl]
    exact out
  obtain ⟨source, target, hs, ht, feeds⟩ := load_link_iff reachable false load hb hl
  exact ⟨source, target, hs, ht, feeds.mpr (.inr grounded)⟩

end Material

/-- Two sums that feed each other. -/
def Document.ring : Document where
  name := "ring"
  blocks :=
    [{ id := 1, tag := "AddBlock", name := "first", links := [⟨"left", 2, "output"⟩] },
      { id := 2, tag := "AddBlock", name := "second", links := [⟨"left", 1, "output"⟩] }]
  outputs := []

theorem Document.restoreOrder_ring : ring.restoreOrder false = [] := by
  simp [restoreOrder, ring, Search.breadth]

/-- A load may succeed and leave out links: those of a ring that nothing else feeds. -/
theorem Material.ring_links_dropped :
    ({ name := "" } : Material).Reachable ∧ ∃ ids m',
      ({ name := "" } : Material).load .ring .builtin false = (.ok ids, m') ∧
      ∀ source output target input, ¬m'.graph.Feeds source output target input := by
  have loaded : ((({ name := "" } : Material).load .ring .builtin false).1.toOption.any
      fun _ => true) = true := by
    unfold load Document.loader
    rw [Document.restoreOrder_ring]
    decide +kernel
  have free : ((({ name := "" } : Material).load .ring .builtin false).2.graph.blocks.all
      fun b => b.inputs.all fun p => p.link.isNone) = true := by
    unfold load Document.loader
    rw [Document.restoreOrder_ring]
    decide +kernel
  obtain ⟨ids, loaded, -⟩ := exists_ok_of_any loaded
  refine ⟨.new "" {} 1, ids, _, Prod.ext loaded rfl, ?_⟩
  rintro source output target input ⟨i, j, -, feeds⟩
  obtain ⟨p, hp, hl⟩ := Graph.source?_eq_some_iff.mp feeds
  obtain ⟨b, hb, hi⟩ := Graph.input?_eq_some_iff.mp hp
  have none := List.all_eq_true.mp (List.all_eq_true.mp free b (Graph.mem_of_get? hb)) p
    (List.mem_of_getElem? hi)
  rw [hl] at none
  cases none

end ShaderGraph
