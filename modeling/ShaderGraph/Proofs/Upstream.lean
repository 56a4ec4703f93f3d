import Mathlib.Data.Finset.Card
import Mathlib.Logic.Relation
import ShaderGraph.Proofs.Links

/-!
# No block feeds itself

`g.Upstream a b` holds if `a` reads from `b`, by a link or by a teleport; a teleport whose entry is
gone reads from nothing. The search that guards `connect` and `setTeleportEntry` decides the closure
of this relation on every graph (`Graph.reaches_iff`), so the edges that it lets through close no
cycle and those it refuses would (`Graph.ofEdits_cycles_refused`).

* `Graph.mem_gather_iff` does the same for the search that collects what a list of roots reaches.
* `Graph.depth` is the number of blocks behind a block. It falls along every edge of a graph
  without cycles, so no walk upstream is longer than the graph.
-/

namespace ShaderGraph.Search

open List

variable {α : Type} [DecidableEq α] {all seen todo rest : List α} {next : α → List α} {n : α}

theorem preorder_of_fresh (here : n ∈ all) (fresh : n ∉ seen) :
    preorder all next seen (n :: rest) = preorder all next (n :: seen) (next n ++ rest) := by
  rw [preorder, dif_pos ⟨here, fresh⟩]

theorem mem_preorder_of_seen (h : n ∈ seen) : n ∈ preorder all next seen todo := by
  fun_induction preorder all next seen todo with
  | case1 seen => exact mem_reverse.mpr h
  | case2 seen m rest here _ ih => exact ih (mem_cons_of_mem m h)
  | case3 seen m rest away ih => exact ih h

/-- The search takes up everything that it was to visit, and whatever follows what it takes up. -/
theorem closed_preorder (inv : ∀ x ∈ seen, ∀ y ∈ next x, y ∈ all → y ∈ seen ∨ y ∈ todo) :
    (∀ x ∈ todo, x ∈ all → x ∈ preorder all next seen todo) ∧
      ∀ x ∈ preorder all next seen todo, ∀ y ∈ next x, y ∈ all →
        y ∈ preorder all next seen todo := by
  fun_induction preorder all next seen todo with
  | case1 seen =>
    refine ⟨fun x hx => absurd hx not_mem_nil, fun x hx y hy hall => ?_⟩
    simpa using inv x (mem_reverse.mp hx) y hy hall
  | case2 seen n rest here _ ih =>
    have later := ih fun x hx y hy hall => by
      rcases mem_cons.mp hx with rfl | hx
      · exact .inr (mem_append_left _ hy)
      · have := inv x hx y hy hall
        simp only [mem_cons, mem_append] at this ⊢
        tauto
    refine ⟨fun x hx hall => ?_, later.2⟩
    rcases mem_cons.mp hx with rfl | hx
    · exact mem_preorder_of_seen mem_cons_self
    · exact later.1 x (mem_append_right _ hx) hall
  | case3 seen n rest away ih =>
    have passed : n ∈ all → n ∈ seen := by tauto
    have later := ih fun x hx y hy hall => by
      rcases inv x hx y hy hall with seen | todo
      · exact .inl seen
      · rcases mem_cons.mp todo with rfl | todo
        · exact .inl (passed hall)
        · exact .inr todo
    refine ⟨fun x hx hall => ?_, later.2⟩
    rcases mem_cons.mp hx with rfl | hx
    · exact mem_preorder_of_seen (passed hall)
    · exact later.1 x hx hall

end ShaderGraph.Search

namespace ShaderGraph.Graph

open Relation List Option

variable {g g' : Graph} {a b id out entry x y : BlockId} {r s t : SocketRef} {roots : List BlockId}
  {output : OutputSocket} {input : InputSocket}

/-! ## 1. The relation -/

/-- Block `a` reads from block `b`, by a link or by a teleport. -/
def Upstream (g : Graph) (a b : BlockId) : Prop :=
  (∃ i s, g.source? ⟨a, i⟩ = some s ∧ s.block = b) ∨ (g.origin? a = some b ∧ b ∈ g.ids)

/-- Following links and teleports never leads back to the start. -/
def Acyclic (g : Graph) : Prop := ∀ x, ¬TransGen g.Upstream x x

theorem upstream_of_source? (h : g.source? r = some s) : g.Upstream r.block s.block :=
  .inl ⟨r.index, s, h, rfl⟩

theorem Upstream.mem_ids (h : g.Upstream a b) : a ∈ g.ids := by
  rw [mem_ids_iff]
  rcases h with ⟨i, s, hs, _⟩ | ⟨he, -⟩
  · obtain ⟨p, hp, _⟩ := source?_eq_some_iff.mp hs
    obtain ⟨c, hc, _⟩ := input?_eq_some_iff.mp hp
    exact ⟨c, hc⟩
  · obtain ⟨c, hc, _⟩ := origin?_eq_some_iff.mp he
    exact ⟨c, hc⟩

theorem Coherent.mem_ids_of_upstream (hg : g.Coherent) (h : g.Upstream a b) : b ∈ g.ids := by
  rcases h with ⟨i, s, hs, rfl⟩ | ⟨-, there⟩
  · obtain ⟨o, ho, _⟩ := hg.exists_output hs
    obtain ⟨p, hp, _⟩ := output?_eq_some_iff.mp ho
    exact mem_ids_iff.mpr ⟨p, hp⟩
  · exact there

theorem exists_get?_of_mem_feeders (h : b ∈ g.feeders a) : ∃ c, g.get? a = some c := by
  unfold feeders at h
  cases hb : g.get? a with
  | none => simp [hb] at h
  | some c => exact ⟨c, rfl⟩

theorem linked_or_named_of_mem_feeders (h : b ∈ g.feeders a) :
    (∃ i s, g.source? ⟨a, i⟩ = some s ∧ s.block = b) ∨ g.origin? a = some b := by
  obtain ⟨c, hb⟩ := exists_get?_of_mem_feeders h
  simp only [feeders, hb, elim_some, Block.feeders, mem_append, mem_filter,
    mem_filterMap, map_eq_some_iff, mem_toList] at h
  rcases h with ⟨⟨p, hp, s, hs, rfl⟩, _⟩ | he
  · obtain ⟨i, hi⟩ := getElem?_of_mem hp
    refine .inl ⟨i, s, ?_, rfl⟩
    exact source?_eq_some_iff.mpr ⟨p, input?_eq_some_iff.mpr ⟨c, hb, hi⟩, hs⟩
  · exact .inr (origin?_eq_some_iff.mpr ⟨c, hb, he⟩)

theorem upstream_of_mem_feeders (h : b ∈ g.feeders a) (there : b ∈ g.ids) : g.Upstream a b :=
  (linked_or_named_of_mem_feeders h).imp_right fun origin => ⟨origin, there⟩

/-- What feeds a block and is not there is its entry: links lead to blocks that are there. -/
theorem Coherent.origin?_of_mem_feeders (hg : g.Coherent) (h : b ∈ g.feeders a)
    (gone : b ∉ g.ids) : g.origin? a = some b :=
  (linked_or_named_of_mem_feeders h).resolve_left fun linked =>
    gone (hg.mem_ids_of_upstream (.inl linked))

/-- The feeders of a block are what it reads from, except for a link to itself. -/
theorem mem_feeders_of_upstream (h : g.Upstream a b) (apart : b ≠ a) : b ∈ g.feeders a := by
  unfold feeders
  rcases h with ⟨i, s, hs, rfl⟩ | ⟨he, -⟩
  · obtain ⟨p, hp, hl⟩ := source?_eq_some_iff.mp hs
    obtain ⟨c, hc, hi⟩ := input?_eq_some_iff.mp hp
    rw [hc, elim_some, Block.feeders, mem_append, mem_filter]
    refine .inl ⟨mem_filterMap.mpr ⟨p, mem_of_getElem? hi, by rw [hl]; rfl⟩, ?_⟩
    rw [id_of_get? hc]
    simpa using apart
  · obtain ⟨c, hc, hentry⟩ := origin?_eq_some_iff.mp he
    rw [hc, elim_some, Block.feeders, mem_append]
    exact .inr (mem_toList.mpr hentry)

/-! ## 2. The searches -/

theorem closed_of_reflTransGen {S : BlockId → Prop}
    (closed : ∀ x y, S x → g.Upstream x y → S y) (h : ReflTransGen g.Upstream x y) (hx : S x) :
    S y := by
  induction h with
  | refl => exact hx
  | tail _ hstep ih => exact closed _ _ ih hstep

theorem mem_preorder_sound {seen todo : List BlockId}
    (h : x ∈ Search.preorder g.ids g.feeders seen todo) :
    x ∈ seen ∨ (x ∈ g.ids ∧ ∃ n ∈ todo, ReflTransGen g.Upstream n x) := by
  fun_induction Search.preorder g.ids g.feeders seen todo with
  | case1 seen => exact .inl (mem_reverse.mp h)
  | case2 seen n rest here _ ih =>
    rcases ih h with hseen | ⟨hx, m, hm, hpath⟩
    · rcases mem_cons.mp hseen with rfl | hseen
      · exact .inr ⟨here.1, x, mem_cons_self, .refl⟩
      · exact .inl hseen
    · rcases mem_append.mp hm with hfeeds | hrest
      · have there : m ∈ g.ids := by
          rcases hpath.cases_head with rfl | ⟨_, step, -⟩
          · exact hx
          · exact step.mem_ids
        exact .inr ⟨hx, n, mem_cons_self, .head (upstream_of_mem_feeders hfeeds there) hpath⟩
      · exact .inr ⟨hx, m, mem_cons_of_mem n hrest, hpath⟩
  | case3 seen n rest old ih =>
    rcases ih h with hseen | ⟨hx, m, hm, hpath⟩
    · exact .inl hseen
    · exact .inr ⟨hx, m, mem_cons_of_mem n hm, hpath⟩

/-- `gather` collects exactly the blocks of the graph behind the roots. -/
theorem mem_gather_iff :
    x ∈ g.gather roots ↔ x ∈ g.ids ∧ ∃ n ∈ roots, ReflTransGen g.Upstream n x := by
  constructor
  · intro h
    simpa using mem_preorder_sound h
  · rintro ⟨hx, n, hn, hpath⟩
    have closed := @Search.closed_preorder _ _ g.ids [] roots g.feeders nofun
    induction hpath with
    | refl => exact closed.1 n hn hx
    | @tail y x _ hstep ih =>
      by_cases hxy : x = y
      · exact hxy ▸ ih hstep.mem_ids
      · exact closed.2 y (ih hstep.mem_ids) x (mem_feeders_of_upstream hstep hxy) hx

/-- The search for a goal meets what the search without one lists, until it finds the goal. -/
theorem reachesFrom_iff {goal : BlockId} {seen todo : List BlockId} :
    g.reachesFrom goal seen todo = true ↔ goal ∈ todo ∨
      ∃ n ∈ Search.preorder g.ids g.feeders seen todo, n ∉ seen ∧ goal ∈ g.feeders n := by
  fun_induction reachesFrom g goal seen todo with
  | case1 seen => simp +contextual [Search.preorder]
  | case2 seen rest => simp
  | case3 seen n rest hne here _ ih =>
    have listed : n ∈ Search.preorder g.ids g.feeders (n :: seen) (g.feeders n ++ rest) :=
      Search.mem_preorder_of_seen mem_cons_self
    rw [ih, Search.preorder, dif_pos here]
    simp only [mem_append, mem_cons, not_or]
    grind
  | case4 seen n rest hne old ih =>
    rw [ih, Search.preorder, dif_neg old]
    simp [Ne.symm hne]

/-- The search decides, on every graph, whether one block is behind another. -/
theorem reaches_iff (there : b ∈ g.ids) : g.reaches a b = true ↔ ReflTransGen g.Upstream a b := by
  have found : g.reaches a b = true ↔ b = a ∨ ∃ n ∈ g.gather [a], b ∈ g.feeders n := by
    simp [reaches, reachesFrom_iff, gather]
  rw [found]
  clear found
  constructor
  · rintro (rfl | ⟨n, hn, feeds⟩)
    · exact .refl
    · obtain ⟨-, m, hm, hpath⟩ := mem_gather_iff.mp hn
      exact (mem_singleton.mp hm ▸ hpath).tail (upstream_of_mem_feeders feeds there)
  · intro hpath
    induction hpath with
    | refl => exact .inl rfl
    | @tail n b hpath hstep ih =>
      by_cases hbn : b = n
      · exact hbn ▸ ih hstep.mem_ids
      · refine .inr ⟨n, mem_gather_iff.mpr ⟨hstep.mem_ids, a, mem_singleton_self a, hpath⟩, ?_⟩
        exact mem_feeders_of_upstream hstep hbn

theorem mem_gather_of_mem (h : x ∈ roots) (hx : x ∈ g.ids) : x ∈ g.gather roots :=
  mem_gather_iff.mpr ⟨hx, x, h, .refl⟩

theorem Coherent.mem_gather_of_upstream (hg : g.Coherent) (hx : x ∈ g.gather roots)
    (hxy : g.Upstream x b) : b ∈ g.gather roots := by
  obtain ⟨-, n, hn, hpath⟩ := mem_gather_iff.mp hx
  exact mem_gather_iff.mpr ⟨hg.mem_ids_of_upstream hxy, n, hn, hpath.tail hxy⟩

/-! ## 3. How far upstream a block is -/

open Classical in
/-- How many blocks are behind a block. -/
noncomputable def depth (g : Graph) (x : BlockId) : Nat :=
  (g.ids.toFinset.filter fun y => TransGen g.Upstream x y).card

/-- What feeds a block has fewer blocks behind it. -/
theorem depth_lt (hc : g.Coherent) (hg : g.Acyclic) (h : g.Upstream a b) :
    g.depth b < g.depth a := by
  classical
  refine Finset.card_lt_card ⟨?_, ?_⟩
  · intro y hy
    rw [Finset.mem_filter] at hy ⊢
    exact ⟨hy.1, .head h hy.2⟩
  · intro hsub
    have hb : b ∈ g.ids.toFinset.filter fun y => TransGen g.Upstream a y := by
      rw [Finset.mem_filter, List.mem_toFinset]
      exact ⟨hc.mem_ids_of_upstream h, .single h⟩
    exact hg b (Finset.mem_filter.mp (hsub hb)).2

/-- A block is not behind itself, so there are fewer blocks behind it than there are blocks. -/
theorem depth_lt_length (hg : g.Acyclic) (h : a ∈ g.ids) : g.depth a < g.blocks.length := by
  classical
  have behind : (g.ids.toFinset.filter fun y => TransGen g.Upstream a y) ⊆
      g.ids.toFinset.erase a := by
    intro y hy
    rw [Finset.mem_filter] at hy
    refine Finset.mem_erase.mpr ⟨?_, hy.1⟩
    rintro rfl
    exact hg y hy.2
  calc g.depth a ≤ (g.ids.toFinset.erase a).card := Finset.card_le_card behind
    _ < g.ids.toFinset.card := Finset.card_erase_lt_of_mem (mem_toFinset.mpr h)
    _ ≤ g.ids.length := toFinset_card_le g.ids
    _ = g.blocks.length := length_map _

/-! ## 4. Edits and cycles -/

theorem acyclic_empty : ({} : Graph).Acyclic := by
  intro x h
  obtain ⟨y, hxy, _⟩ := TransGen.head'_iff.mp h
  exact absurd hxy.mem_ids not_mem_nil

theorem Acyclic.mono (hg : g.Acyclic) (sub : ∀ a b, g'.Upstream a b → g.Upstream a b) :
    g'.Acyclic :=
  fun x h => hg x (h.lift id sub)

/-- One more edge, from `a` to `b`, leaves every path or comes before a path from `b`. -/
theorem reflTransGen_of_edge (sub : ∀ x y, g'.Upstream x y → g.Upstream x y ∨ (x = a ∧ y = b))
    (h : ReflTransGen g'.Upstream x y) :
    ReflTransGen g.Upstream x y ∨
      (ReflTransGen g.Upstream x a ∧ ReflTransGen g.Upstream b y) := by
  induction h with
  | refl => exact .inl .refl
  | tail _ hstep ih =>
    rcases sub _ _ hstep with hold | ⟨rfl, rfl⟩
    · rcases ih with hpath | ⟨hto, hfrom⟩
      · exact .inl (hpath.tail hold)
      · exact .inr ⟨hto, hfrom.tail hold⟩
    · rcases ih with hpath | ⟨hto, _⟩
      · exact .inr ⟨hpath, .refl⟩
      · exact .inr ⟨hto, .refl⟩

/-- An edge closes no cycle unless its start is behind its end. -/
theorem Acyclic.of_edge (hg : g.Acyclic)
    (sub : ∀ x y, g'.Upstream x y → g.Upstream x y ∨ (x = a ∧ y = b))
    (apart : ¬ReflTransGen g.Upstream b a) : g'.Acyclic := by
  intro x h
  obtain ⟨y, hxy, hyx⟩ := TransGen.head'_iff.mp h
  rcases sub _ _ hxy with hold | ⟨rfl, rfl⟩
  · rcases reflTransGen_of_edge sub hyx with hpath | ⟨hto, hfrom⟩
    · exact hg x (.head' hold hpath)
    · exact apart (hfrom.trans (.head hold hto))
  · rcases reflTransGen_of_edge sub hyx with hpath | ⟨hto, _⟩
    · exact apart hpath
    · exact apart hto

theorem IsFresh.origin?_ne {kind : Kind} (fresh : g.IsFresh id kind) : g.origin? x ≠ some id := by
  intro h
  obtain ⟨b, hb, -⟩ := origin?_eq_some_iff.mp h
  exact fresh.2.1 x (mem_ids_iff.mpr ⟨b, hb⟩) h

theorem IsFresh.origin?_self {kind : Kind} (fresh : g.IsFresh id kind) : g.origin? id = none := by
  simp [origin?, get?_eq_none_iff.mpr fresh.1]

/-- A new block reads from the entry that its kind names, if that is in the graph. -/
theorem upstream_insert {kind : Kind} (fresh : g.IsFresh g.freshId kind) (name : String) :
    (g.insert name kind).Upstream a b ↔
      g.Upstream a b ∨ (a = g.freshId ∧ kind.teleportEntry = some b ∧ b ∈ g.ids) := by
  have unnamed : b ≠ g.freshId ∨ (g.origin? a ≠ some b ∧ kind.teleportEntry ≠ some b) := by
    by_cases same : b = g.freshId
    · exact .inr ⟨same ▸ fresh.origin?_ne, same ▸ fresh.2.2⟩
    · exact .inl same
  have old := fresh.origin?_self
  simp only [Upstream, source?_insert, origin?_insert fresh.1, ids_insert, mem_append,
    mem_singleton]
  grind

theorem upstream_insert_of_free {kind : Kind} (fresh : g.IsFresh g.freshId kind) (name : String)
    (free : kind.teleportEntry = none) : (g.insert name kind).Upstream a b ↔ g.Upstream a b := by
  simp [upstream_insert fresh, free]

theorem Acyclic.insert (hg : g.Acyclic) (hc : g.Coherent) {kind : Kind}
    (fresh : g.IsFresh g.freshId kind) (name : String) : (g.insert name kind).Acyclic := by
  cases held : kind.teleportEntry with
  | none => exact hg.mono fun _ _ => (upstream_insert_of_free fresh name held).mp
  | some e =>
    refine hg.of_edge (a := g.freshId) (b := e) (fun x y up => ?_) fun path => ?_
    · rcases (upstream_insert fresh name).mp up with old | ⟨hx, hy, -⟩
      · exact .inl old
      · exact .inr ⟨hx, Option.some.inj (hy.symm.trans held)⟩
    -- nothing reads from the block yet
    · rcases path.cases_tail with same | ⟨_, -, up⟩
      · exact fresh.2.2 (same ▸ held)
      · exact fresh.1 (hc.mem_ids_of_upstream up)

theorem upstream_link (h : g.Linkable s t output input) :
    (g.link s t).Upstream a b ↔ g.Upstream a b ∨ (a = t.block ∧ b = s.block) := by
  have free : g.source? t = none := by
    unfold source?
    rw [h.input_eq]
    exact h.free
  unfold Upstream
  simp only [source?_link h.input_eq, origin?_congr (map_link .of_kind g s t a), ids_link]
  constructor
  · rintro (⟨i, q, hq, rfl⟩ | he)
    · split at hq
      · rename_i hit
        cases hq
        exact .inr ⟨congrArg SocketRef.block hit, rfl⟩
      · exact .inl (.inl ⟨i, q, hq, rfl⟩)
    · exact .inl (.inr he)
  · rintro ((⟨i, q, hq, rfl⟩ | he) | ⟨rfl, rfl⟩)
    · refine .inl ⟨i, q, ?_, rfl⟩
      rw [if_neg]
      · exact hq
      · rintro rfl
        rw [free] at hq
        cases hq
    · exact .inr he
    · exact .inl ⟨t.index, s, if_pos rfl, rfl⟩

theorem upstream_of_cut (h : (g.cut s t).Upstream a b) : g.Upstream a b := by
  rcases h with ⟨i, q, hq, rfl⟩ | he
  · rw [source?_cut] at hq
    split at hq
    · cases hq
    · exact .inl ⟨i, q, hq, rfl⟩
  · rw [origin?_congr (map_cut .of_kind g s t a), ids_cut] at he
    exact .inr he

theorem upstream_of_withEntry {entry : Option BlockId} (h : (g.withEntry out entry).Upstream a b) :
    g.Upstream a b ∨ (a = out ∧ entry = some b) := by
  rcases h with ⟨i, q, hq, rfl⟩ | he
  · rw [source?_withEntry] at hq
    exact .inl (.inl ⟨i, q, hq, rfl⟩)
  · obtain ⟨he, there⟩ := he
    rw [ids_withEntry] at there
    rcases origin?_withEntry_eq_some he with hnew | ⟨_, hold⟩
    · exact .inr hnew
    · exact .inl (.inr ⟨hold, there⟩)

theorem Coherent.upstream_of_remove (hg : g.Coherent) (h : (g.remove id).1.Upstream a b) :
    g.Upstream a b := by
  rcases h with ⟨i, q, hq, rfl⟩ | he
  · exact .inl ⟨i, q, ((hg.source?_remove_iff id).mp hq).2.2, rfl⟩
  · obtain ⟨he, there⟩ := he
    rw [Coherent.ids_remove] at there
    exact .inr ⟨(origin?_remove_eq_some he).2, mem_of_mem_filter there⟩

theorem Linkable.target_mem_ids (h : g.Linkable s t output input) : t.block ∈ g.ids := by
  obtain ⟨b, hb, -⟩ := input?_eq_some_iff.mp h.input_eq
  exact mem_ids_iff.mpr ⟨b, hb⟩

theorem Acyclic.connect (hg : g.Acyclic) (h : g.connect s t = .ok g') : g'.Acyclic := by
  obtain ⟨⟨output, input, hl⟩, hr, rfl⟩ := connect_eq_ok_iff.mp h
  refine hg.of_edge (fun x y => (upstream_link hl).mp) fun hpath => ?_
  rw [(reaches_iff hl.target_mem_ids).mpr hpath] at hr
  cases hr

theorem Acyclic.setTeleportEntry {entry : Option BlockId} (hg : g.Acyclic)
    (h : g.setTeleportEntry out entry = .ok g') : g'.Acyclic := by
  obtain ⟨⟨c, hc, hall⟩, rfl⟩ := setTeleportEntry_eq_ok_iff.mp h
  cases entry with
  | none =>
    refine hg.mono fun x y hxy => ?_
    rcases upstream_of_withEntry hxy with hold | ⟨_, hnone⟩
    · exact hold
    · cases hnone
  | some e =>
    refine hg.of_edge (a := out) (b := e) (fun x y hxy => ?_) fun hpath => ?_
    · rcases upstream_of_withEntry hxy with hold | ⟨hx, hy⟩
      · exact .inl hold
      · exact .inr ⟨hx, (Option.some.inj hy).symm⟩
    · have hr := (hall e rfl).2.2
      rw [(reaches_iff (mem_ids_iff.mpr ⟨c, hc⟩)).mpr hpath] at hr
      cases hr

/-- Where a link would be possible, it is refused exactly if the producer is behind the consumer. -/
theorem connect_refused_iff (h : g.Linkable s t output input) :
    (∃ fault, g.connect s t = .error fault) ↔ ReflTransGen g.Upstream s.block t.block := by
  rw [← reaches_iff h.target_mem_ids]
  constructor
  · rintro ⟨fault, herr⟩
    by_contra hr
    rw [connect_eq_ok_iff.mpr ⟨⟨output, input, h⟩, by simpa using hr, rfl⟩] at herr
    cases herr
  · intro hr
    cases hc : g.connect s t with
    | error fault => exact ⟨fault, rfl⟩
    | ok g' =>
      rw [(connect_eq_ok_iff.mp hc).2.1] at hr
      cases hr

/-- A new link closes a cycle exactly if the producer is behind the consumer. -/
theorem link_cyclic_iff (hg : g.Acyclic) (h : g.Linkable s t output input) :
    ¬(g.link s t).Acyclic ↔ ReflTransGen g.Upstream s.block t.block := by
  constructor
  · intro hcyclic
    by_contra apart
    exact hcyclic (hg.of_edge (fun x y => (upstream_link h).mp) apart)
  · intro hpath hacyclic
    have new : (g.link s t).Upstream t.block s.block := (upstream_link h).mpr (.inr ⟨rfl, rfl⟩)
    have old : ReflTransGen (g.link s t).Upstream s.block t.block :=
      hpath.lift id fun x y hxy => (upstream_link h).mpr (.inl hxy)
    exact hacyclic _ (.head' new old)

/-- A teleport from an entry to an exit is refused exactly if the exit is behind the entry. -/
theorem setTeleportEntry_refused_iff {b : Block} (hout : g.get? out = some b)
    (hexit : b.kind.isTeleportOut = true) (hentry : g.isEntry entry = true) :
    (∃ fault, g.setTeleportEntry out (some entry) = .error fault) ↔
      ReflTransGen g.Upstream entry out := by
  rw [← reaches_iff (mem_ids_iff.mpr ⟨b, hout⟩)]
  constructor
  · rintro ⟨fault, herr⟩
    by_contra hr
    rw [setTeleportEntry_eq_ok_iff.mpr ⟨⟨b, hout, ?_⟩, rfl⟩] at herr
    · cases herr
    · rintro e he
      cases he
      exact ⟨hexit, hentry, by simpa using hr⟩
  · intro hr
    cases hc : g.setTeleportEntry out (some entry) with
    | error fault => exact ⟨fault, rfl⟩
    | ok g' =>
      obtain ⟨⟨_, _, hall⟩, _⟩ := setTeleportEntry_eq_ok_iff.mp hc
      rw [(hall entry rfl).2.2] at hr
      cases hr

end ShaderGraph.Graph

namespace ShaderGraph.Edit

/-- Every call keeps a coherent graph free of cycles. -/
theorem acyclic_perform {g : Graph} (hc : g.Coherent) (hg : g.Acyclic) (e : Edit) :
    (e.perform g).Acyclic := by
  refine e.perform_of_apply hg fun g' h => ?_
  cases e with
  | insert id name kind =>
    cases h
    split
    · rename_i fresh
      have hg' : ({ g with nextId := id.index } : Graph).Acyclic := hg
      exact hg'.insert ⟨hc.distinct, hc.listed, hc.answered⟩ fresh name
    · exact hg
  | remove id =>
    cases h
    exact hg.mono fun a b => hc.upstream_of_remove
  | connect source target => exact hg.connect h
  | connectNamed source output target input =>
    obtain ⟨i, j, h⟩ := Graph.connectNamed_eq_ok h
    exact hg.connect h
  | disconnect target =>
    rcases Graph.disconnect_eq_ok h with rfl | ⟨s, _, rfl⟩
    · exact hg
    · exact hg.mono fun a b => Graph.upstream_of_cut
  | setTeleportEntry out entry => exact hg.setTeleportEntry h

end ShaderGraph.Edit

namespace ShaderGraph.Graph

open Relation

theorem acyclic_ofEdits (edits : List Edit) : (ofEdits edits).Acyclic := by
  have both : (ofEdits edits).Coherent ∧ (ofEdits edits).Acyclic := by
    refine ofEdits_induction (P := fun g => g.Coherent ∧ g.Acyclic) ?_ edits ?_
    · exact ⟨.empty, acyclic_empty⟩
    · exact fun _ e _ h => ⟨e.coherent_perform h.1, e.acyclic_perform h.1 h.2⟩
  exact both.2

/-- After any sequence of calls no block is behind itself. A link that fits is refused exactly if
its producer is behind its consumer, which is exactly when it would close a cycle; a teleport is
refused exactly if its exit is behind its entry; and a refused call changes nothing. -/
theorem ofEdits_cycles_refused (edits : List Edit) :
    let g := ofEdits edits
    (∀ x, ¬TransGen g.Upstream x x) ∧
    (∀ source target output input, g.output? source = some output →
      g.input? target = some input → source.block ≠ target.block → input.link = none →
      (output.spec.type.isConcrete = true → input.spec.accepts output.spec.type = true) →
      ((∃ fault, g.connect source target = .error fault) ↔
          ReflTransGen g.Upstream source.block target.block) ∧
        ((∃ fault, g.connect source target = .error fault) ↔
          ∃ x, TransGen (g.link source target).Upstream x x)) ∧
    (∀ out entry b e, g.get? out = some b → b.kind.isTeleportOut = true →
      g.get? entry = some e → e.kind.isTeleportIn = true →
      ((∃ fault, g.setTeleportEntry out (some entry) = .error fault) ↔
        ReflTransGen g.Upstream entry out)) ∧
    (∀ source target fault, g.connect source target = .error fault →
      (Edit.connect source target).perform g = g) ∧
    (∀ out entry fault, g.setTeleportEntry out entry = .error fault →
      (Edit.setTeleportEntry out entry).perform g = g) := by
  intro g
  have hg : g.Acyclic := acyclic_ofEdits edits
  refine ⟨hg, ?_, ?_, ?_, ?_⟩
  · intro source target output input ho hi apart free fits
    have hl : g.Linkable source target output input := ⟨ho, hi, free, apart, fits⟩
    have cyclic : (∃ x, TransGen (g.link source target).Upstream x x) ↔
        ReflTransGen g.Upstream source.block target.block := by
      rw [← link_cyclic_iff hg hl, Acyclic]
      simp only [not_forall, not_not]
    rw [cyclic]
    exact ⟨connect_refused_iff hl, connect_refused_iff hl⟩
  · intro out entry b e hb hexit he hin
    exact setTeleportEntry_refused_iff hb hexit (isEntry_iff.mpr ⟨e, he, hin⟩)
  · intro source target fault h
    simp only [Edit.perform, Edit.apply, h]
  · intro out entry fault h
    simp only [Edit.perform, Edit.apply, h]

theorem sums_cycles_refused :
    let g := ofEdits sums
    (∃ output input, g.output? ⟨⟨2⟩, 0⟩ = some output ∧ g.input? ⟨⟨1⟩, 0⟩ = some input ∧
      input.link = none ∧ output.spec.type.isConcrete = false ∧
      ((∃ fault, g.connect ⟨⟨2⟩, 0⟩ ⟨⟨1⟩, 0⟩ = .error fault) ↔
        ReflTransGen g.Upstream ⟨2⟩ ⟨1⟩)) ∧
    (∃ b e, g.get? ⟨4⟩ = some b ∧ b.kind.isTeleportOut = true ∧ g.get? ⟨3⟩ = some e ∧
      e.kind.isTeleportIn = true ∧
      ((∃ fault, g.setTeleportEntry ⟨4⟩ (some ⟨3⟩) = .error fault) ↔
        ReflTransGen g.Upstream ⟨3⟩ ⟨4⟩)) ∧
    ∃ fault, g.connect ⟨⟨2⟩, 0⟩ ⟨⟨1⟩, 0⟩ = .error fault ∧
      (Edit.connect ⟨⟨2⟩, 0⟩ ⟨⟨1⟩, 0⟩).perform g = g := by
  intro g
  obtain ⟨-, links, teleports, unchanged, -⟩ := ofEdits_cycles_refused sums
  have sockets : ((ofEdits sums).output? ⟨⟨2⟩, 0⟩).any (fun o => !o.spec.type.isConcrete) = true ∧
      ((ofEdits sums).input? ⟨⟨1⟩, 0⟩).any (fun i => !i.link.isSome) = true := by decide_cbv
  have kinds : ((ofEdits sums).get? ⟨4⟩).any (fun b => b.kind.isTeleportOut) = true ∧
      ((ofEdits sums).get? ⟨3⟩).any (fun b => b.kind.isTeleportIn) = true := by decide_cbv
  simp only [Option.any_eq_true, Bool.not_eq_true', Option.isSome_eq_false_iff,
    Option.isNone_iff_eq_none] at sockets kinds
  obtain ⟨⟨output, ho, loose⟩, ⟨input, hi, free⟩⟩ := sockets
  obtain ⟨⟨b, hb, hout⟩, ⟨e, he, hin⟩⟩ := kinds
  have refused := links ⟨⟨2⟩, 0⟩ ⟨⟨1⟩, 0⟩ output input ho hi (by decide) free
    fun concrete => by rw [loose] at concrete; cases concrete
  have fed : g.Upstream ⟨2⟩ ⟨1⟩ := upstream_of_source? source?_sums
  obtain ⟨fault, hfault⟩ := refused.1.mpr (.single fed)
  exact ⟨⟨output, input, ho, hi, free, loose, refused.1⟩,
    ⟨b, e, hb, hout, he, hin, teleports _ _ b e hb hout he hin⟩,
    fault, hfault, unchanged _ _ fault hfault⟩

end ShaderGraph.Graph
