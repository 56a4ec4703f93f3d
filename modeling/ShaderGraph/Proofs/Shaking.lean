import ShaderGraph.Proofs.Attaching
import ShaderGraph.Proofs.Reloading
import ShaderGraph.Proofs.Restricting

/-!
# Documents without what no output reaches

The blocks that shaking leaves of a document are closed under whatever feeds them, so that a load of
them can go along with a load of the whole document: a step for a block that is left is taken on
both sides, and a step for any other block does not show (`Load.Follows`). The order in which links
are restored is the same for the blocks that are left (`Document.restoreOrder_shake`). So a document
that loads still loads after it was shaken, and gives the part of the graph that its blocks make up
(`Material.ofDocument_shake`).
-/

namespace ShaderGraph

open List ShaderGraph.Graph Option Kind Material Load Document IdMap

/-! ## 1. Searches that keep to a part -/

namespace Search

variable {α : Type} [DecidableEq α] {all seen items queue todo : List α} {next next' : α → List α}
  {keep : α → Bool}

theorem fresh_filter :
    fresh (all.filter keep) (seen.filter keep) (items.filter keep) =
      (fresh all seen items).filter keep := by
  induction items generalizing seen with
  | nil => rfl
  | cons n rest ih =>
    by_cases hn : keep n = true
    · have here : (n ∈ all.filter keep ∧ n ∉ seen.filter keep) ↔ n ∈ all ∧ n ∉ seen := by
        simp [hn]
      rw [filter_cons_of_pos hn, fresh, fresh]
      by_cases new : n ∈ all ∧ n ∉ seen
      · rw [if_pos new, if_pos (here.mpr new), filter_cons_of_pos hn, ← ih,
          filter_cons_of_pos hn]
      · rw [if_neg new, if_neg (mt here.mp new), ih]
    · rw [filter_cons_of_neg hn, fresh]
      split
      · rw [filter_cons_of_neg hn, ← ih, filter_cons_of_neg hn]
      · exact ih

/-- If no item outside of a part leads into it, the search in the part lists what the search lists
of the part, in the same order. -/
theorem breadth_filter (all : List α) (closed : ∀ n, keep n = false → ∀ x ∈ next n, keep x = false)
    (inside : ∀ n, keep n = true → next' n = (next n).filter keep) (seen queue : List α) :
    breadth (all.filter keep) next' (seen.filter keep) (queue.filter keep) =
      (breadth all next seen queue).filter keep := by
  induction seen, queue using breadth_induction all next with
  | nil seen => simp [breadth]
  | cons seen n queue ih =>
    rw [breadth_cons, filter_append, ← ih, filter_append, filter_append]
    cases hn : keep n with
    | true =>
      rw [filter_cons_of_pos hn, breadth_cons, inside n hn, fresh_filter]
    | false =>
      have none : (fresh all seen (next n)).filter keep = [] := by
        refine filter_eq_nil_iff.mpr fun x hx => ?_
        rw [closed n hn x (mem_fresh_iff.mp hx).1]
        exact Bool.false_ne_true
      rw [filter_cons_of_neg (by simp [hn]), none, nil_append, nil_append,
        append_nil]

end Search

/-! ## 2. The blocks that are left -/

namespace Document

variable {d : Document} {b : BlockEntry} {a e : Nat}

theorem mem_reached_of_mem_outputs (hd : d.Referring) (h : a ∈ d.outputs) : a ∈ d.reached :=
  (Search.closed_preorder nofun).1 a h (hd.outputs a h)

theorem mem_reached_of_feeder (ha : a ∈ d.reached) (h : e ∈ d.feeders a) (he : e ∈ d.ids) :
    e ∈ d.reached :=
  (Search.closed_preorder nofun).2 a ha e h he

theorem Referring.feeders_eq (hd : d.Referring) (hb : b ∈ d.blocks) :
    d.feeders b.id = b.links.map LinkEntry.target ++ (entryOf b).toList := by
  unfold feeders
  rw [hd.find?_eq_some_iff.mpr ⟨hb, rfl⟩]

theorem Referring.target_reached (hd : d.Referring) (hb : b ∈ d.blocks) (kept : b.id ∈ d.reached)
    {l : LinkEntry} (hl : l ∈ b.links) : l.target ∈ d.reached := by
  refine mem_reached_of_feeder kept ?_ (hd.targets b hb l hl)
  rw [hd.feeders_eq hb]
  exact mem_append_left _ (mem_map_of_mem hl)

theorem Referring.entry_reached (hd : d.Referring) (hb : b ∈ d.blocks) (kept : b.id ∈ d.reached)
    (he : entryOf b = some e) (here : e ∈ d.ids) : e ∈ d.reached := by
  refine mem_reached_of_feeder kept ?_ here
  rw [hd.feeders_eq hb, he]
  exact mem_append_right _ mem_cons_self

theorem ids_shake (d : Document) : d.shake.ids = d.ids.filter (· ∈ d.reached) := by
  unfold ids shake
  rw [List.filter_map]
  rfl

theorem mem_ids_shake : a ∈ d.shake.ids ↔ a ∈ d.ids ∧ a ∈ d.reached := by
  rw [ids_shake, mem_filter, decide_eq_true_iff]

theorem mem_blocks_shake : b ∈ d.shake.blocks ↔ b ∈ d.blocks ∧ b.id ∈ d.reached := by
  unfold shake
  rw [mem_filter, decide_eq_true_iff]

theorem Referring.shake (hd : d.Referring) : d.shake.Referring where
  distinct := by
    rw [ids_shake]
    exact hd.distinct.filter _
  targets b hb l hl := by
    obtain ⟨hb, kept⟩ := mem_blocks_shake.mp hb
    exact mem_ids_shake.mpr ⟨hd.targets b hb l hl, hd.target_reached hb kept hl⟩
  outputs a ha := mem_ids_shake.mpr ⟨hd.outputs a ha, mem_reached_of_mem_outputs hd ha⟩

theorem consumers_shake (d : Document) (a : Nat) :
    d.shake.consumers a = (d.consumers a).filter (· ∈ d.reached) := by
  unfold consumers shake
  rw [List.filter_map, List.filter_filter, List.filter_filter]
  congr 2
  funext b
  exact Bool.and_comm _ _

theorem starts_shake (d : Document) (merge : Bool) :
    d.shake.starts merge = (d.starts merge).filter (· ∈ d.reached) := by
  unfold starts shake
  rw [List.filter_map, List.filter_filter, List.filter_filter]
  congr 2
  funext b
  exact Bool.and_comm _ _

/-- The links of the blocks that are left are restored in the same order. -/
theorem restoreOrder_shake (hd : d.Referring) (merge : Bool) :
    d.shake.restoreOrder merge = (d.restoreOrder merge).filter fun b => b.id ∈ d.reached := by
  have closed : ∀ n, decide (n ∈ d.reached) = false → ∀ x ∈ d.consumers n,
      decide (x ∈ d.reached) = false := by
    intro n hn x hx
    obtain ⟨b, hb, rfl, l, hl, rfl⟩ := mem_consumers_iff.mp hx
    rw [decide_eq_false_iff_not] at hn ⊢
    exact fun kept => hn (hd.target_reached hb kept hl)
  have search := Search.breadth_filter d.ids closed (fun n _ => d.consumers_shake n) []
    (d.starts merge)
  rw [List.filter_nil, ← ids_shake, ← starts_shake] at search
  have order : ∀ d : Document, d.restoreOrder merge =
      (Search.breadth d.ids d.consumers [] (d.starts merge)).filterMap fun a =>
        d.blocks.find? fun b => b.id == a := fun _ => rfl
  rw [order, order, search, List.filterMap_filter, List.filter_filterMap]
  refine List.filterMap_congr fun a _ => Option.ext fun b => ?_
  rw [Option.filter_eq_some_iff, hd.find?_eq_some_iff]
  split
  · rw [hd.shake.find?_eq_some_iff, mem_blocks_shake, and_right_comm, decide_eq_true_iff]
  · rename_i away
    constructor
    · exact fun h => nomatch h
    · rintro ⟨⟨-, rfl⟩, kept⟩
      exact absurd kept away

end Document

/-! ## 3. Loads that go along with each other -/

/-- The block that one load has made for the number for which another one has made a block. -/
def IdMap.through (ids ids' : IdMap) (x : BlockId) : Option BlockId :=
  (ids.find? fun p => p.2 == x).bind fun p => ids'.lookup p.1

section

variable {ids ids' : IdMap} {x y : BlockId} {a : Nat}

theorem IdMap.through_of_mem (distinct : (ids.map Prod.snd).Nodup) (h : (a, x) ∈ ids) :
    ids.through ids' x = ids'.lookup a := by
  have found : ids.find? (fun p => p.2 == x) = some (a, x) := by
    cases hp : ids.find? fun p => p.2 == x with
    | none => simpa using find?_eq_none.mp hp _ h
    | some p =>
      have same : p.2 = x := by simpa using find?_some hp
      rw [inj_on_of_nodup_map distinct (mem_of_find?_eq_some hp) h same]
  rw [through, found, bind_some]

theorem IdMap.through_of_lookup (distinct : (ids.map Prod.snd).Nodup)
    (h : ids.lookup a = some x) : ids.through ids' x = ids'.lookup a :=
  through_of_mem distinct (mem_of_lookup h)

theorem IdMap.exists_of_through (h : ids.through ids' x = some y) :
    ∃ a, (a, x) ∈ ids ∧ ids'.lookup a = some y := by
  obtain ⟨p, hp, hy⟩ := bind_eq_some_iff.mp h
  have same : p.2 = x := by simpa using find?_some hp
  exact ⟨p.1, same ▸ mem_of_find?_eq_some hp, hy⟩

theorem IdMap.apart_through (keys : (ids.map Prod.fst).Nodup) (values : (ids'.map Prod.snd).Nodup) :
    Apart (ids.through ids') := by
  intro x x' y h h'
  obtain ⟨a, ha, hy⟩ := exists_of_through h
  obtain ⟨a', ha', hy'⟩ := exists_of_through h'
  have same : a = a' := congrArg Prod.fst
    (inj_on_of_nodup_map values (mem_of_lookup hy) (mem_of_lookup hy') rfl)
  subst same
  exact congrArg Prod.snd (inj_on_of_nodup_map keys ha ha' rfl)

end

theorem map_pushNew_through {f : BlockId → Option BlockId} {x y : BlockId} {xs ys : List BlockId}
    (apart : Apart f) (hx : f x = some y) (h : xs.map f = ys.map some) :
    (pushNew x xs).map f = (pushNew y ys).map some := by
  have listed : x ∈ xs ↔ y ∈ ys := by
    constructor
    · intro here
      have image : f x ∈ xs.map f := mem_map_of_mem here
      rw [h, hx] at image
      simpa using image
    · intro here
      have image : some y ∈ ys.map some := mem_map_of_mem here
      rw [← h] at image
      obtain ⟨x', hx', same⟩ := mem_map.mp image
      exact apart x' x y same hx ▸ hx'
  unfold pushNew
  by_cases here : x ∈ xs
  · rw [if_pos here, if_pos (listed.mp here), h]
  · rw [if_neg here, if_neg (mt listed.mpr here), map_append, map_append, h,
      map_singleton, map_singleton, hx]

namespace Kind

theorem takePending_takePending (k : Kind) : k.takePending.2.takePending.1 = none := by
  cases k <;> rfl

theorem pending_setTeleportEntry (k : Kind) (entry : Option BlockId) :
    (k.setTeleportEntry entry).takePending.1 = k.takePending.1 := by
  cases k <;> rfl

/-- The entry that a block waits for is the one by which shaking goes on. -/
theorem entryOf_of_pending {k k' : Kind} {b : BlockEntry} {e : Nat}
    (h : k.setFields? b.fields = some k') (pending : k'.takePending.1 = some e) :
    Document.entryOf b = some e := by
  cases k with
  | teleportOut t =>
    obtain ⟨t', ht, rfl⟩ := map_eq_some_iff.mp h
    obtain ⟨p, hp, ht⟩ := bind_eq_some_iff.mp ht
    cases ht
    obtain rfl : p = some e := pending
    unfold Json.optionalField? at hp
    unfold Document.entryOf
    split at hp
    · cases hp
    · cases hp
    · rename_i v _ found
      obtain ⟨n, hn, same⟩ := map_eq_some_iff.mp hp
      rw [found]
      exact hn.trans same
  | input _ | transform _ | fragmentOutput _ | clamp _ | texture _ =>
    obtain ⟨t', -, rfl⟩ := map_eq_some_iff.mp h
    cases pending
  | _ =>
    cases h
    cases pending

end Kind

namespace Load

variable {α : Type} {ids ids' : IdMap} {m m' m₁ : Material} {r : Registry} {b : BlockEntry}
  {x y : BlockId} {d : Document} {R : Material → Material → Prop}

/-- A load has left the part of what another one has left that it has made blocks for. The blocks
that still wait for a teleport entry will find it on both sides, or on none. -/
structure Follows (ids ids' : IdMap) (m m' : Material) : Prop where
  frame : m' = { m with graph := m'.graph, roots := m'.roots }
  part : m.graph.Restricts (ids.through ids') m'.graph
  closed : m.graph.Closed (ids.through ids')
  pending : ∀ x b e, m.graph.get? x = some b → b.kind.takePending.1 = some e →
    (ids.through ids' x).isSome → (ids.lookup e).isSome → (ids'.lookup e).isSome
  made : ∀ x ∈ ids.map Prod.snd, x ∈ m.graph.ids
  vertex : m.roots.vertex.map (ids.through ids') = m'.roots.vertex.map some
  fragment : m.roots.fragment.map (ids.through ids') = m'.roots.fragment.map some

/-- A loop over some of the items goes along with a loop over all of them. -/
theorem exists_gives_filter {f : α → Load PUnit} {items : List α} (f' : α → Load PUnit)
    (keep : α → Bool) (h : Gives (items.forM f) m ⟨⟩ m₁) (hR : R m m')
    (kept : ∀ a ∈ items, keep a = true → ∀ n n' n₁, R n n' → Gives (f a) n ⟨⟩ n₁ →
      ∃ n₁', Gives (f' a) n' ⟨⟩ n₁' ∧ R n₁ n₁')
    (dropped : ∀ a ∈ items, keep a = false → ∀ n n' n₁, R n n' → Gives (f a) n ⟨⟩ n₁ → R n₁ n') :
    ∃ m₁', Gives ((items.filter keep).forM f') m' ⟨⟩ m₁' ∧ R m₁ m₁' := by
  induction items generalizing m m' with
  | nil =>
    obtain ⟨-, rfl⟩ := gives_pure_iff.mp h
    exact ⟨m', gives_pure_iff.mpr ⟨rfl, rfl⟩, hR⟩
  | cons a rest ih =>
    obtain ⟨n, first, h⟩ := gives_forM_cons_iff.mp h
    rw [forall_mem_cons] at kept dropped
    cases ha : keep a with
    | true =>
      obtain ⟨n', first', hn⟩ := kept.1 ha m m' n hR first
      obtain ⟨m₁', later, hm⟩ := ih h hn kept.2 dropped.2
      rw [filter_cons_of_pos ha]
      exact ⟨m₁', gives_forM_cons_iff.mpr ⟨n', first', later⟩, hm⟩
    | false =>
      rw [filter_cons_of_neg (by simp [ha])]
      exact ih h (dropped.1 ha m m' n hR first) kept.2 dropped.2

theorem exists_gives_along {f : α → Load PUnit} {items : List α} (f' : α → Load PUnit)
    (h : Gives (items.forM f) m ⟨⟩ m₁) (hR : R m m')
    (step : ∀ a ∈ items, ∀ n n' n₁, R n n' → Gives (f a) n ⟨⟩ n₁ →
      ∃ n₁', Gives (f' a) n' ⟨⟩ n₁' ∧ R n₁ n₁') :
    ∃ m₁', Gives (items.forM f') m' ⟨⟩ m₁' ∧ R m₁ m₁' := by
  have all := exists_gives_filter f' (fun _ => true) h hR (fun a ha _ => step a ha)
    fun _ _ none => nomatch none
  rwa [filter_true] at all

namespace Follows

variable {g g' : Graph} {e : BlockId} {s t : SocketRef} {l : LinkEntry}

variable (h : Follows ids ids' m m')
include h

theorem change (part : g.Restricts (ids.through ids') g') (same : g.ids = m.graph.ids)
    (sources : ∀ r s, g.source? r = some s → (ids.through ids' r.block).isSome →
      m.graph.source? r = some s ∨ (ids.through ids' s.block).isSome)
    (origins : ∀ x e, g.origin? x = some e → (ids.through ids' x).isSome →
      m.graph.origin? x = some e ∨ (ids.through ids' e).isSome)
    (pending : ∀ x b e, g.get? x = some b → b.kind.takePending.1 = some e →
      ∃ c, m.graph.get? x = some c ∧ c.kind.takePending.1 = some e) :
    Follows ids ids' { m with graph := g } { m' with graph := g' } where
  frame := by rw [h.frame]
  part := part
  closed :=
    { links := fun r s hs kept => (sources r s hs kept).elim (h.closed.links r s · kept) id
      entries := fun x e he kept => (origins x e he kept).elim (h.closed.entries x e · kept) id }
  pending x b e hb he := by
    obtain ⟨c, hc, he⟩ := pending x b e hb he
    exact h.pending x c e hc he
  made x hx := same ▸ h.made x hx
  vertex := h.vertex
  fragment := h.fragment

theorem takePending
    (part : (m.graph.modify x fun b => { b with kind := b.kind.takePending.2 }).Restricts
      (ids.through ids') g') :
    Follows ids ids'
      { m with graph := m.graph.modify x fun b => { b with kind := b.kind.takePending.2 } }
      { m' with graph := g' } := by
  have get := get?_modify m.graph x (f := fun b => { b with kind := b.kind.takePending.2 })
    (by intro; rfl)
  refine h.change part (ids_modify ..) (fun r s hs _ => ?_)
    (fun z e he _ => ?_) fun z b e hb he => ?_
  · rw [source?_modify _ (by intro; rfl) (by intro; rfl)] at hs
    exact .inl hs
  · obtain ⟨b, hb, he⟩ := origin?_eq_some_iff.mp he
    rw [get] at hb
    split at hb
    · obtain ⟨c, hc, rfl⟩ := map_eq_some_iff.mp hb
      exact .inl (origin?_eq_some_iff.mpr ⟨c, hc, c.adjusted_takePending.entry ▸ he⟩)
    · exact .inl (origin?_eq_some_iff.mpr ⟨b, hb, he⟩)
  · rw [get] at hb
    split at hb
    · obtain ⟨c, hc, rfl⟩ := map_eq_some_iff.mp hb
      rw [takePending_takePending] at he
      cases he
    · exact ⟨b, hb, he⟩

theorem withEntry (inside : (ids.through ids' x).isSome → (ids.through ids' e).isSome)
    (part : (m.graph.withEntry x (some e)).Restricts (ids.through ids') g') :
    Follows ids ids' { m with graph := m.graph.withEntry x (some e) } { m' with graph := g' } := by
  refine h.change part (ids_withEntry _ _ _) (fun r s hs _ => ?_)
    (fun z w hw kept => ?_) fun z b n hb hn => ?_
  · rw [source?_withEntry] at hs
    exact .inl hs
  · rcases origin?_withEntry_eq_some hw with ⟨rfl, same⟩ | ⟨-, old⟩
    · exact .inr (Option.some.inj same ▸ inside kept)
    · exact .inl old
  · unfold Graph.withEntry at hb
    rw [get?_modify] at hb
    split at hb
    · obtain ⟨c, hc, rfl⟩ := map_eq_some_iff.mp hb
      exact ⟨c, hc, c.kind.pending_setTeleportEntry (some e) ▸ hn⟩
    · exact ⟨b, hb, hn⟩

theorem link {p : InputSocket} (hp : m.graph.input? t = some p)
    (inside : (ids.through ids' t.block).isSome → (ids.through ids' s.block).isSome)
    (part : (m.graph.link s t).Restricts (ids.through ids') g') :
    Follows ids ids' { m with graph := m.graph.link s t } { m' with graph := g' } := by
  refine h.change part (ids_link _ _ _) (fun r u hu kept => ?_)
    (fun z w hw _ => ?_) fun z b n hb hn => ?_
  · rw [source?_link hp] at hu
    split at hu
    · rename_i here
      subst here
      exact .inr (Option.some.inj hu ▸ inside kept)
    · exact .inl hu
  · rw [origin?_congr (map_link .of_kind m.graph s t z)] at hw
    exact .inl hw
  · have pending := map_link (.of_kind (f := fun k => k.takePending.1)) m.graph s t z
    rw [hb, map_some, hn] at pending
    exact map_eq_some_iff.mp pending.symm

variable (values : (ids.map Prod.snd).Nodup) (apart : Apart (ids.through ids'))
include values apart

section

variable (hx : ids.lookup b.id = some x)
include hx

theorem restoreTeleport (hy : ids'.lookup b.id = some y)
    (gives : Gives (restoreTeleport ids b) m ⟨⟩ m₁) :
    ∃ m₁', Gives (Load.restoreTeleport ids' b) m' ⟨⟩ m₁' ∧ Follows ids ids' m₁ m₁' := by
  have there : ids.through ids' x = some y := (through_of_lookup values hx).trans hy
  obtain ⟨c, hc⟩ := mem_ids_iff.mp (h.made x (mem_map_of_mem (mem_of_lookup hx)))
  have hc' := h.part.get? apart there
  rw [hc, bind_some, Block.restrict, id_of_get? hc, there, map_some] at hc'
  have taken := h.takePending (h.part.takePending apart there)
  obtain ⟨g, rfl, change⟩ := (gives_restoreTeleport_iff hx hc).mp gives
  cases hp : c.kind.takePending.1 with
  | none =>
    simp only [hp] at change
    subst change
    refine ⟨_, (gives_restoreTeleport_iff hy hc').mpr ⟨_, rfl, ?_⟩, taken⟩
    simp only [restrict_takePending, hp]
  | some n =>
    simp only [hp] at change
    obtain ⟨z, hz, change⟩ := change
    have known : (ids'.lookup n).isSome = true :=
      h.pending x c n hc hp (by rw [there]; rfl) (by rw [hz]; rfl)
    obtain ⟨z', hz'⟩ := isSome_iff_exists.mp known
    have entry : ids.through ids' z = some z' := (through_of_lookup values hz).trans hz'
    obtain ⟨g', change', part⟩ := taken.part.setTeleportEntry apart there entry change
    obtain ⟨-, rfl⟩ := setTeleportEntry_eq_ok_iff.mp change
    refine ⟨_, (gives_restoreTeleport_iff hy hc').mpr ⟨g', rfl, ?_⟩,
      taken.withEntry (fun _ => by rw [entry]; rfl) part⟩
    simp only [restrict_takePending, hp]
    exact ⟨z', hz', change'⟩

omit apart in
theorem restoreTeleport_of_none (none : ids'.lookup b.id = none)
    (gives : Gives (Load.restoreTeleport ids b) m ⟨⟩ m₁) : Follows ids ids' m₁ m' := by
  have out : ids.through ids' x = Option.none := (through_of_lookup values hx).trans none
  obtain ⟨c, hc⟩ := mem_ids_iff.mp (h.made x (mem_map_of_mem (mem_of_lookup hx)))
  have taken := h.takePending (h.part.modify_of_none out (by intro; rfl))
  obtain ⟨g, rfl, change⟩ := (gives_restoreTeleport_iff hx hc).mp gives
  cases hp : c.kind.takePending.1 with
  | none =>
    simp only [hp] at change
    exact change ▸ taken
  | some n =>
    simp only [hp] at change
    obtain ⟨z, -, change⟩ := change
    obtain ⟨-, rfl⟩ := setTeleportEntry_eq_ok_iff.mp change
    refine taken.withEntry (fun kept => ?_) (taken.part.modify_of_none out (by intro; rfl))
    rw [out] at kept
    cases kept

theorem restoreLink (hy : ids'.lookup b.id = some y) {p p' : BlockId}
    (hp : ids.lookup l.target = some p) (hp' : ids'.lookup l.target = some p')
    (gives : Gives (restoreLink ids b l) m ⟨⟩ m₁) :
    ∃ m₁', Gives (Load.restoreLink ids' b l) m' ⟨⟩ m₁' ∧ Follows ids ids' m₁ m₁' := by
  have consumer : ids.through ids' x = some y := (through_of_lookup values hx).trans hy
  have producer : ids.through ids' p = some p' := (through_of_lookup values hp).trans hp'
  unfold Load.restoreLink at gives ⊢
  simp only [hx, hp] at gives
  simp only [hy, hp']
  obtain ⟨g, made, rfl⟩ := gives_onGraph_iff.mp gives
  obtain ⟨g', made', part⟩ := h.part.connectNamed apart producer consumer made
  obtain ⟨i, j, -, made⟩ := connectNamed_eq_ok_iff.mp made
  obtain ⟨⟨o, q, linkable⟩, -, rfl⟩ := connect_eq_ok_iff.mp made
  exact ⟨_, gives_onGraph_iff.mpr ⟨g', made', rfl⟩,
    h.link linkable.input_eq (fun _ => by rw [producer]; rfl) part⟩

omit apart in
theorem restoreLink_of_none (none : ids'.lookup b.id = none)
    (gives : Gives (Load.restoreLink ids b l) m ⟨⟩ m₁) : Follows ids ids' m₁ m' := by
  have out : ids.through ids' x = Option.none := (through_of_lookup values hx).trans none
  unfold Load.restoreLink at gives
  split at gives
  · rename_i p x' hp hx'
    cases hx.symm.trans hx'
    obtain ⟨g, made, rfl⟩ := gives_onGraph_iff.mp gives
    obtain ⟨i, j, -, made⟩ := connectNamed_eq_ok_iff.mp made
    obtain ⟨⟨o, q, linkable⟩, -, rfl⟩ := connect_eq_ok_iff.mp made
    refine h.link linkable.input_eq (fun kept => ?_) (h.part.link_of_none out _)
    rw [out] at kept
    cases kept
  · obtain ⟨-, rfl⟩ := gives_pure_iff.mp gives
    exact h

end

theorem addRoot {output : Nat} (hx : ids.lookup output = some x) (hy : ids'.lookup output = some y)
    (gives : Gives (addRoot ids output) m ⟨⟩ m₁) :
    ∃ m₁', Gives (Load.addRoot ids' output) m' ⟨⟩ m₁' ∧ Follows ids ids' m₁ m₁' := by
  have there : ids.through ids' x = some y := (through_of_lookup values hx).trans hy
  rw [gives_addRoot_iff, hx] at gives
  obtain ⟨c, hc, staged, rfl⟩ := addRoot_eq_ok_iff.mp gives
  obtain ⟨c', hc', target⟩ : ∃ c', m'.graph.get? y = some c' ∧ c'.target = c.target := by
    have found := h.part.get? apart there
    rw [hc, bind_some, Block.restrict, id_of_get? hc, there, map_some] at found
    exact ⟨_, found, c.kind.target_restrict⟩
  have grown : ∀ (staged : Bool) (xs ys : List BlockId),
      xs.map (ids.through ids') = ys.map some →
      (if staged then pushNew x xs else xs).map (ids.through ids') =
        (if staged then pushNew y ys else ys).map some := by
    intro staged xs ys same
    split
    · exact map_pushNew_through apart there same
    · exact same
  refine ⟨{ m' with roots := m'.roots.add c.target y }, gives_addRoot_iff.mpr ?_, ?_⟩
  · rw [hy]
    exact addRoot_eq_ok_iff.mpr ⟨c', hc', target ▸ staged, by rw [target]⟩
  · exact
      { frame := by rw [h.frame]
        part := h.part
        closed := h.closed
        pending := h.pending
        made := h.made
        vertex := grown _ _ _ h.vertex
        fragment := grown _ _ _ h.fragment }

end Follows

/-! ## 4. A whole load -/

theorem keys_of_gives {entries : List BlockEntry}
    (h : Gives (entries.mapM (Load.addBlock r)) m ids m₁) :
    ids.map Prod.fst = entries.map BlockEntry.id := by
  induction entries generalizing m ids with
  | nil =>
    obtain ⟨rfl, -⟩ := gives_pure_iff.mp h
    rfl
  | cons b rest ih =>
    rw [mapM_cons] at h
    obtain ⟨p, n, first, h⟩ := gives_bind_iff.mp h
    obtain ⟨-, -, rfl, -⟩ := gives_addBlock_iff.mp first
    obtain ⟨ids', n', later, h⟩ := gives_bind_iff.mp h
    obtain ⟨rfl, rfl⟩ := gives_pure_iff.mp h
    rw [map_cons, map_cons, ih later]

section

variable (free : ∀ tag kind, r.create tag = .ok kind → kind.teleportEntry = none)
include free

theorem free_of_kindOf {kind : Kind} (h : kindOf r b = .ok kind) : kind.teleportEntry = none := by
  obtain ⟨made, hmade, entry⟩ := entry_of_kindOf h
  exact entry.trans (free b.tag made hmade)

/-- The blocks of some of the entries are added along with those of all of them. -/
theorem exists_gives_addBlocks_filter (keep : BlockEntry → Bool) {entries : List BlockEntry}
    (distinct : (entries.map BlockEntry.id).Nodup)
    (h : Gives (entries.mapM (Load.addBlock r)) m ids m₁) (m' : Material) :
    ∃ ids' m₁', Gives ((entries.filter keep).mapM (Load.addBlock r)) m' ids' m₁' ∧
      ∀ f : BlockId → Option BlockId, (∀ p ∈ ids, f p.2 = ids'.lookup p.1) → Apart f →
        m.graph.Restricts f m'.graph → m₁.graph.Restricts f m₁'.graph := by
  induction entries generalizing m m' ids with
  | nil =>
    obtain ⟨rfl, rfl⟩ := gives_pure_iff.mp h
    exact ⟨[], m', gives_pure_iff.mpr ⟨rfl, rfl⟩, fun _ _ _ part => part⟩
  | cons b rest ih =>
    rw [List.mapM_cons] at h
    obtain ⟨p, n, first, h⟩ := gives_bind_iff.mp h
    obtain ⟨kind, hkind, rfl, rfl⟩ := gives_addBlock_iff.mp first
    obtain ⟨ids₁, n', later, h⟩ := gives_bind_iff.mp h
    obtain ⟨rfl, rfl⟩ := gives_pure_iff.mp h
    rw [List.map_cons, List.nodup_cons] at distinct
    have others : ∀ p ∈ ids₁, p.1 ≠ b.id := fun p hp same =>
      distinct.1 (same ▸ keys_of_gives later ▸ List.mem_map_of_mem hp)
    cases hb : keep b with
    | true =>
      let next : Material := { m' with graph := m'.graph.withEntryBlock b kind }
      obtain ⟨ids', m₁', later', part⟩ := ih distinct.2 later next
      refine ⟨(b.id, m'.graph.freshId) :: ids', m₁', ?_, fun f hf apart before => ?_⟩
      · rw [List.filter_cons_of_pos hb, List.mapM_cons]
        exact gives_bind_iff.mpr ⟨_, next, gives_addBlock_iff.mpr ⟨kind, hkind, rfl, rfl⟩,
          gives_bind_iff.mpr ⟨ids', m₁', later', gives_pure_iff.mpr ⟨rfl, rfl⟩⟩⟩
      · rw [List.forall_mem_cons, List.lookup_cons_self] at hf
        refine part f (fun p hp => ?_) apart ?_
        · rw [hf.2 p hp, List.lookup_cons, beq_false_of_ne (others p hp)]
        · refine (before.insert hf.1 b.name (free_of_kindOf free hkind)).modify apart hf.1
            fun c => ?_
          unfold Block.restrict
          rw [Option.map_map]
          rfl
    | false =>
      obtain ⟨ids', m₁', later', part⟩ := ih distinct.2 later m'
      refine ⟨ids', m₁', ?_, fun f hf apart before => ?_⟩
      · rw [List.filter_cons_of_neg (by simp [hb])]
        exact later'
      · rw [List.forall_mem_cons] at hf
        have away : ids'.lookup b.id = none := by
          refine lookup_eq_none fun here => distinct.1 ?_
          rw [keys_of_gives later'] at here
          obtain ⟨c, hc, same⟩ := List.mem_map.mp here
          exact same ▸ List.mem_map_of_mem (List.mem_filter.mp hc).1
        have out : f m.graph.freshId = none := hf.1.trans away
        refine part f hf.2 apart ?_
        exact (before.insert_of_none out b.name kind).modify_of_none out (by intro; rfl)

/-- The blocks of a document, and of what is left of it, have been added. -/
theorem follows_of_added {n n' : Material} (hd : d.Referring) (empty : n.graph.blocks = [])
    (frame : n' = { n with graph := n'.graph })
    (unrooted : n.roots = {}) (added : Added r d.blocks n ids m)
    (added' : Added r d.shake.blocks n' ids' m')
    (part : m.graph.Restricts (ids.through ids') m'.graph) : Follows ids ids' m m' := by
  -- every block was made for an entry, and nothing is connected
  have block : ∀ x c, m.graph.get? x = some c → ∃ b ∈ d.blocks, ∃ kind,
      ids.lookup b.id = some x ∧ kindOf r b = .ok kind ∧ c = b.block x kind := by
    intro x c hc
    have here : x ∈ m.graph.ids := mem_ids_iff.mpr ⟨c, hc⟩
    rw [added.values, Graph.ids, empty, map_nil, nil_append] at here
    obtain ⟨p, hp, rfl⟩ := mem_map.mp here
    have key : p.1 ∈ d.blocks.map BlockEntry.id := added.keys ▸ mem_map_of_mem hp
    obtain ⟨b, hb, same⟩ := mem_map.mp key
    obtain ⟨y, kind, hy, hkind, hget⟩ := added.made b hb
    have keys : (ids.map Prod.fst).Nodup := added.keys ▸ hd.distinct
    rw [same, lookup_of_mem keys hp] at hy
    cases hy
    exact ⟨b, hb, kind, same ▸ lookup_of_mem keys hp, hkind, Option.some.inj (hc.symm.trans hget)⟩
  have values : (ids.map Prod.snd).Nodup := added.nodup_values
  have left : ∀ {a}, (ids'.lookup a).isSome ↔ a ∈ d.shake.ids := added'.isSome_lookup_iff
  have roots : m.roots = {} ∧ m'.roots = {} := by
    rw [added.frame, added'.frame, frame]
    exact ⟨unrooted, unrooted⟩
  constructor
  case frame => rw [added.frame, added'.frame, frame]
  case part => exact part
  case closed =>
    refine ⟨fun t s hs => ?_, fun x e he => ?_⟩
    · obtain ⟨p, hp, -⟩ := source?_eq_some_iff.mp hs
      obtain ⟨c, hc, -⟩ := input?_eq_some_iff.mp hp
      obtain ⟨b, hb, kind, hx, -⟩ := block _ c hc
      rw [added.source?_eq_none hb hx] at hs
      cases hs
    · obtain ⟨c, hc, he⟩ := origin?_eq_some_iff.mp he
      obtain ⟨b, -, kind, -, hkind, rfl⟩ := block x c hc
      have none : kind.teleportEntry = Option.none := free_of_kindOf free hkind
      cases none.symm.trans he
  case pending =>
    intro x c e hc waits inside known
    obtain ⟨b, hb, kind, hx, hkind, rfl⟩ := block x c hc
    obtain ⟨made, -, set⟩ := kindOf_eq_ok_iff.mp hkind
    rw [through_of_lookup values hx, left, mem_ids_shake] at inside
    rw [left, mem_ids_shake]
    have here : e ∈ d.ids := added.isSome_lookup_iff.mp known
    exact ⟨here, hd.entry_reached hb inside.2 (entryOf_of_pending set waits) here⟩
  case made => exact fun x => added.mem_ids
  case vertex => rw [roots.1, roots.2]; rfl
  case fragment => rw [roots.1, roots.2]; rfl

/-- What is left of a document loads along with the document. -/
theorem exists_load_shake {n : Nat} (h : ({ name := d.name, graph := { nextId := n } } :
      Material).load d r false = (.ok ids, m)) (n' : Nat) :
    ∃ ids' m', ({ name := d.shake.name, graph := { nextId := n' } } : Material).load d.shake r
      false = (.ok ids', m') ∧ ids.map Prod.fst = d.ids ∧ ids'.map Prod.fst = d.shake.ids ∧
        Follows ids ids' m m' := by
  obtain ⟨hd, m₁, m₂, m₃, h₁, h₂, h₃, h₄⟩ := gives_loader_iff.mp h
  have counted : ∀ (d : Document) (n : Nat),
      (before d false { name := d.name, graph := { nextId := n } }).graph.Counted :=
    fun d n => ⟨nodup_nil, fun _ h => nomatch h⟩
  have added := added_of_gives (counted d n) hd.distinct h₁
  obtain ⟨ids', m₁', h₁', part⟩ := exists_gives_addBlocks_filter free
    (fun b => b.id ∈ d.reached) hd.distinct h₁
    (before d.shake false { name := d.shake.name, graph := { nextId := n' } })
  have added' := added_of_gives (counted d.shake n') hd.shake.distinct h₁'
  have values := added.nodup_values
  have apart : Apart (ids.through ids') :=
    apart_through (added.keys ▸ hd.distinct) added'.nodup_values
  have follows : Follows ids ids' m₁ m₁' := by
    refine follows_of_added free hd rfl rfl rfl added added' (part _ (fun p hp => ?_) apart rfl)
    exact through_of_mem values hp
  have known : ∀ {b}, b ∈ d.blocks → ∃ x, ids.lookup b.id = some x := fun hb =>
    isSome_iff_exists.mp (added.isSome_lookup_iff.mpr (mem_map_of_mem hb))
  have kept : ∀ {a}, a ∈ d.ids → a ∈ d.reached → ∃ y, ids'.lookup a = some y := fun ha reached =>
    isSome_iff_exists.mp (added'.isSome_lookup_iff.mpr
      (mem_ids_shake.mpr ⟨ha, reached⟩))
  have dropped : ∀ {a}, a ∉ d.reached → ids'.lookup a = none := fun away =>
    not_isSome_iff_eq_none.mp fun known =>
      away (mem_ids_shake.mp (added'.isSome_lookup_iff.mp known)).2
  obtain ⟨m₂', h₂', follows⟩ := exists_gives_filter (restoreTeleport ids')
    (fun b => b.id ∈ d.reached) h₂ follows
    (fun b hb left n n' n₁ hn gives => by
      obtain ⟨x, hx⟩ := known hb
      obtain ⟨y, hy⟩ := kept (mem_map_of_mem hb) (of_decide_eq_true left)
      exact hn.restoreTeleport values apart hx hy gives)
    (fun b hb away n n' n₁ hn gives => by
      obtain ⟨x, hx⟩ := known hb
      exact hn.restoreTeleport_of_none values hx (dropped (of_decide_eq_false away)) gives)
  obtain ⟨m₃', h₃', follows⟩ := exists_gives_filter
    (fun consumer => consumer.links.forM (restoreLink ids' consumer))
    (fun b => b.id ∈ d.reached) h₃ follows
    (fun b hb left n n' n₁ hn gives => by
      have hb := (hd.mem_restoreOrder_iff.mp hb).1
      obtain ⟨x, hx⟩ := known hb
      have left := of_decide_eq_true left
      obtain ⟨y, hy⟩ := kept (mem_map_of_mem hb) left
      refine exists_gives_along _ gives hn fun l hl n n' n₁ hn gives => ?_
      have here := hd.targets b hb l hl
      obtain ⟨p, hp⟩ := isSome_iff_exists.mp (added.isSome_lookup_iff.mpr here)
      obtain ⟨p', hp'⟩ := kept here (hd.target_reached hb left hl)
      exact hn.restoreLink values apart hx hy hp hp' gives)
    (fun b hb away n n' n₁ hn gives => by
      have hb := (hd.mem_restoreOrder_iff.mp hb).1
      obtain ⟨x, hx⟩ := known hb
      refine gives.forM (P := fun n => Follows ids ids' n n') (fun l _ n n₁ hn gives => ?_) hn
      exact hn.restoreLink_of_none values hx (dropped (of_decide_eq_false away)) gives)
  obtain ⟨m₄', h₄', follows⟩ := exists_gives_along (addRoot ids') h₄ follows
    fun a ha n n' n₁ hn gives => by
      have here := hd.outputs a ha
      obtain ⟨x, hx⟩ := isSome_iff_exists.mp (added.isSome_lookup_iff.mpr here)
      obtain ⟨y, hy⟩ := kept here (mem_reached_of_mem_outputs hd ha)
      exact hn.addRoot values apart hx hy gives
  refine ⟨ids', m₄', gives_loader_iff.mpr ⟨hd.shake, m₁', m₂', m₃', h₁', h₂', ?_, h₄'⟩, added.keys,
    added'.keys, follows⟩
  rw [restoreOrder_shake hd]
  exact h₃'

end

end Load

namespace Material

variable {d : Document} {m : Material} {n : Nat}

/-- A document that loads still loads without the blocks that no output reaches. Its graph is then
the part of the whole one that consists of the blocks that are left: their order, settings, links
and teleports are the same, and so are the roots. -/
theorem ofDocument_shake (h : (ofDocument d .builtin n).1 = .ok m) (n' : Nat) :
    ∃ m', (ofDocument d.shake .builtin n').1 = .ok m' ∧ ∃ ids ids' : IdMap,
      ({ name := d.name, graph := { nextId := n } } : Material).load d .builtin false =
          (.ok ids, m) ∧
        ({ name := d.shake.name, graph := { nextId := n' } } : Material).load d.shake .builtin
          false = (.ok ids', m') ∧
        ids.map Prod.fst = d.ids ∧ ids'.map Prod.fst = d.shake.ids ∧
        m' = { m with graph := m'.graph, roots := m'.roots } ∧
        m.graph.Restricts (ids.through ids') m'.graph ∧ m.graph.Closed (ids.through ids') ∧
        m.roots.vertex.map (ids.through ids') = m'.roots.vertex.map some ∧
        m.roots.fragment.map (ids.through ids') = m'.roots.fragment.map some := by
  obtain ⟨ids, load⟩ : ∃ ids, ({ name := d.name, graph := { nextId := n } } : Material).load d
      .builtin false = (.ok ids, m) := by
    unfold ofDocument at h
    dsimp only at h
    generalize load : ({ name := d.name, graph := { nextId := n } } : Material).load d .builtin
      false = loaded at h
    obtain ⟨result, m₁⟩ := loaded
    cases result with
    | error e => cases h
    | ok ids =>
      cases h
      exact ⟨ids, rfl⟩
  obtain ⟨ids', m', load', keys, keys', follows⟩ :=
    Load.exists_load_shake (fun _ _ => Registry.teleportEntry_builtin) load n'
  refine ⟨m', ?_, ids, ids', load, load', keys, keys', follows.frame, follows.part, follows.closed,
    follows.vertex, follows.fragment⟩
  unfold ofDocument
  rw [load']
  rfl

/-- The relay, and a sum that leads nowhere. -/
def littered : Material := relay.addBlock "loose" (.math .add)

theorem littered_ofDocument_shake :
    ∃ m, (ofDocument littered.toDocument .builtin 7).1 = .ok m ∧
      ∃ m', (ofDocument littered.toDocument.shake .builtin 12).1 = .ok m' ∧ ∃ ids ids' : IdMap,
        ids'.map Prod.fst = littered.toDocument.shake.ids ∧
        m.graph.Restricts (ids.through ids') m'.graph ∧ m.graph.Closed (ids.through ids') := by
  have crafted : littered.Crafted := crafted_relay.addBlock "loose" (.math .add) rfl
  have storable : ∀ b ∈ littered.graph.blocks, b.kind.Storable := by
    intro b hb
    rcases List.mem_append.mp hb with hb | hb
    · exact storable_relay b hb
    · rw [List.mem_singleton.mp hb]
      trivial
  obtain ⟨ids, m, load, -⟩ := crafted.intact.exists_load storable
    { name := littered.toDocument.name, graph := { nextId := 7 } }
  have loaded : (ofDocument littered.toDocument .builtin 7).1 = .ok m := by
    unfold ofDocument
    rw [load]
    rfl
  obtain ⟨m', loaded', ids, ids', -, -, -, keys, -, part, closed, -⟩ := ofDocument_shake loaded 12
  exact ⟨m, loaded, m', loaded', ids, ids', keys, part, closed⟩

end Material

end ShaderGraph
