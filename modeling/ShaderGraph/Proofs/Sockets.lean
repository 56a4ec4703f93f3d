import Mathlib.Data.List.Nodup
import ShaderGraph.Graph.Connect

/-!
# What a graph says about a socket

A graph is read through five views: the block of an identity, the input and the output at a place,
the output that feeds an input, and the inputs that an output feeds. Teleports add a sixth, the
entry of a block.

Every change to a graph is described here by what it does to the views. The later modules use these
equations and do not open the changes themselves.
-/

namespace ShaderGraph

open List Option Block

theorem bind_eq_ok_iff {ε α β : Type} {first : Except ε α} {rest : α → Except ε β} {y : β} :
    first >>= rest = .ok y ↔ ∃ x, first = .ok x ∧ rest x = .ok y := by
  constructor
  · intro h
    cases first with
    | error fault => cases h
    | ok x => exact ⟨x, rfl, h⟩
  · rintro ⟨x, rfl, h⟩
    exact h

section Modify

variable {α β : Type} {view : α → β} {f : α → α}

theorem map_modify (f' : β → β) (comm : ∀ a, view (f a) = f' (view a)) (items : List α) (i : Nat) :
    (items.modify i f).map view = (items.map view).modify i f' := by
  refine ext_getElem? fun j => ?_
  simp only [getElem?_map, getElem?_modify]
  cases items[j]? with
  | none => rfl
  | some a => by_cases hij : i = j <;> simp [hij, comm]

theorem map_modify_of_keeps (items : List α) (i : Nat) (keeps : ∀ a, view (f a) = view a) :
    (items.modify i f).map view = items.map view := by
  have same := map_modify id keeps items i
  rwa [modify_id] at same

end Modify

theorem exists_ok_of_any {ε α : Type} {x : Except ε α} {p : α → Bool}
    (h : x.toOption.any p = true) : ∃ a, x = .ok a ∧ p a = true := by
  cases x with
  | error fault => cases h
  | ok a => exact ⟨a, rfl, h⟩

namespace Kind

variable {k : Kind} {x : BlockId}

@[simp]
theorem teleportEntry_setTeleportEntry (k : Kind) (entry : Option BlockId) :
    (k.setTeleportEntry entry).teleportEntry = if k.isTeleportOut then entry else none := by
  cases k <;> rfl

@[simp]
theorem isTeleportIn_setTeleportEntry (k : Kind) (entry : Option BlockId) :
    (k.setTeleportEntry entry).isTeleportIn = k.isTeleportIn := by
  cases k <;> rfl

end Kind

/-- The view does not tell what a block is joined to. -/
structure Block.Unjoined {α : Type} (view : Block → α) : Prop where
  setLink : ∀ b i link, view (b.setLink i link) = view b
  modifyOutput : ∀ b i {f : OutputSocket → OutputSocket}, (∀ p, (f p).spec = p.spec) →
    view (b.modifyOutput i f) = view b

theorem Block.Unjoined.of_kind {α : Type} {f : Kind → α} : Unjoined fun b => f b.kind :=
  ⟨fun _ _ _ => rfl, fun _ _ _ _ => rfl⟩

namespace Graph

def input? (g : Graph) (r : SocketRef) : Option InputSocket :=
  (g.get? r.block).bind fun b => b.inputs[r.index]?

def output? (g : Graph) (r : SocketRef) : Option OutputSocket :=
  (g.get? r.block).bind fun b => b.outputs[r.index]?

def source? (g : Graph) (r : SocketRef) : Option SocketRef := (g.input? r).bind InputSocket.link

/-- The inputs that an output feeds; none if there is no such output. -/
def endpoints (g : Graph) (r : SocketRef) : List SocketRef :=
  (g.output? r).elim [] OutputSocket.endpoints

def origin? (g : Graph) (id : BlockId) : Option BlockId :=
  (g.get? id).bind fun b => b.kind.teleportEntry

/-- Whether a teleport may enter at a block. -/
def isEntry (g : Graph) (id : BlockId) : Bool := (g.get? id).any fun b => b.kind.isTeleportIn

variable {g : Graph} {id x : BlockId} {b : Block} {r s t : SocketRef} {f : Block → Block} {α : Type}
  {g' : Graph} {view : Block → α}

/-! ## 1. Blocks -/

theorem id_of_get? (h : g.get? x = some b) : b.id = x := by
  have found := find?_some h
  simpa using found

theorem mem_of_get? (h : g.get? x = some b) : b ∈ g.blocks := mem_of_find?_eq_some h

theorem mem_ids_iff : x ∈ g.ids ↔ ∃ b, g.get? x = some b := by
  constructor
  · intro h
    obtain ⟨b, hb, rfl⟩ := mem_map.mp h
    cases found : g.get? b.id with
    | some c => exact ⟨c, rfl⟩
    | none => exact absurd (find?_eq_none.mp found b hb) (by simp)
  · rintro ⟨b, h⟩
    exact mem_map.mpr ⟨b, mem_of_get? h, id_of_get? h⟩

theorem get?_eq_none_iff : g.get? x = none ↔ x ∉ g.ids := by
  rw [mem_ids_iff, eq_none_iff_forall_ne_some, not_exists]

theorem get?_of_mem (hd : g.ids.Nodup) (h : b ∈ g.blocks) : g.get? b.id = some b := by
  obtain ⟨c, hc⟩ := mem_ids_iff.mp (mem_map.mpr ⟨b, h, rfl⟩)
  have same : c = b := inj_on_of_nodup_map hd (mem_of_get? hc) h (id_of_get? hc)
  rw [hc, same]

theorem find_eq_ok_iff : g.find x = .ok b ↔ g.get? x = some b := by
  unfold find
  cases g.get? x <;> simp

theorem find_of_get? (h : g.get? x = some b) : g.find x = .ok b := find_eq_ok_iff.mpr h

theorem get?_insert (g : Graph) (name : String) (kind : Kind) (x : BlockId) :
    (g.insert name kind).get? x =
      (g.get? x).or (if x = g.freshId then some (new g.freshId name kind) else none) := by
  simp only [insert, get?, find?_append]
  by_cases h : x = g.freshId
  · simp [h, new]
  · have hne : ¬g.freshId = x := fun hx => h hx.symm
    simp [h, new, hne]

theorem get?_map (g : Graph) (keeps : ∀ b, (f b).id = b.id) (x : BlockId) :
    ({ g with blocks := g.blocks.map f } : Graph).get? x = (g.get? x).map f := by
  have test : (fun b : Block => b.id == x) ∘ f = fun b : Block => b.id == x := by
    funext b
    simp [keeps]
  simp only [get?, find?_map, test]

theorem get?_modify (g : Graph) (id : BlockId) (keeps : ∀ b, (f b).id = b.id := by intro; rfl)
    (x : BlockId) :
    (g.modify id f).get? x = if x = id then (g.get? x).map f else g.get? x := by
  have same : ∀ b : Block, (if b.id = id then f b else b).id = b.id := by
    intro b
    by_cases hb : b.id = id <;> simp [hb, keeps]
  rw [modify, get?_map g same]
  cases hx : g.get? x with
  | none => simp
  | some b =>
    by_cases h : x = id <;> simp [id_of_get? hx, h]

theorem map_get?_modify (g : Graph) (id : BlockId) (keeps : ∀ b, (f b).id = b.id := by intro; rfl)
    (same : ∀ b, view (f b) = view b := by intro; rfl) (x : BlockId) :
    ((g.modify id f).get? x).map view = (g.get? x).map view := by
  rw [get?_modify g id keeps]
  split
  · cases g.get? x <;> simp [same]
  · rfl

def without (g : Graph) (id : BlockId) : Graph :=
  { g with blocks := g.blocks.filter fun other => other.id != id }

theorem get?_without (g : Graph) (id x : BlockId) :
    (g.without id).get? x = if x = id then none else g.get? x := by
  simp only [without, get?, find?_filter]
  by_cases hx : x = id
  · subst hx
    rw [if_pos rfl, find?_eq_none]
    intro b _
    by_cases hb : b.id = x <;> simp [hb]
  · rw [if_neg hx]
    congr 1
    funext b
    by_cases hb : b.id = x
    · simp [hb, hx]
    · simp [hb]

/-! ## 2. Sockets -/

theorem input?_eq_some_iff {p : InputSocket} :
    g.input? r = some p ↔ ∃ b, g.get? r.block = some b ∧ b.inputs[r.index]? = some p :=
  bind_eq_some_iff

theorem output?_eq_some_iff {p : OutputSocket} :
    g.output? r = some p ↔ ∃ b, g.get? r.block = some b ∧ b.outputs[r.index]? = some p :=
  bind_eq_some_iff

theorem source?_eq_some_iff : g.source? r = some s ↔ ∃ p, g.input? r = some p ∧ p.link = some s :=
  bind_eq_some_iff

theorem origin?_eq_some_iff :
    g.origin? id = some x ↔ ∃ b, g.get? id = some b ∧ b.kind.teleportEntry = some x :=
  bind_eq_some_iff

theorem isEntry_iff :
    g.isEntry id = true ↔ ∃ b, g.get? id = some b ∧ b.kind.isTeleportIn = true := by
  simp [isEntry, Option.any_eq_true]

theorem mem_endpoints_iff :
    r ∈ g.endpoints s ↔ ∃ p, g.output? s = some p ∧ r ∈ p.endpoints := by
  unfold endpoints
  cases g.output? s <;> simp

theorem input?_congr (h : (g'.get? r.block).map inputs = (g.get? r.block).map inputs) :
    g'.input? r = g.input? r := by
  unfold input?
  cases hg : g.get? r.block <;> cases hg' : g'.get? r.block <;> simp_all

theorem output?_congr (h : (g'.get? r.block).map outputs = (g.get? r.block).map outputs) :
    g'.output? r = g.output? r := by
  unfold output?
  cases hg : g.get? r.block <;> cases hg' : g'.get? r.block <;> simp_all

theorem origin?_congr (h : (g'.get? id).map (·.kind.teleportEntry) =
    (g.get? id).map (·.kind.teleportEntry)) : g'.origin? id = g.origin? id := by
  unfold origin?
  cases hg : g.get? id <;> cases hg' : g'.get? id <;> simp_all

theorem isEntry_congr (h : (g'.get? id).map (·.kind.isTeleportIn) =
    (g.get? id).map (·.kind.isTeleportIn)) : g'.isEntry id = g.isEntry id := by
  unfold isEntry
  cases hg : g.get? id <;> cases hg' : g'.get? id <;> simp_all

theorem source?_congr (h : g'.input? r = g.input? r) : g'.source? r = g.source? r := by
  unfold source?
  rw [h]

theorem endpoints_congr (h : g'.output? r = g.output? r) : g'.endpoints r = g.endpoints r := by
  unfold endpoints
  rw [h]

section Modify

variable (r : SocketRef) (keeps : ∀ b, (f b).id = b.id)
include keeps

theorem input?_modify (same : ∀ b, (f b).inputs = b.inputs) :
    (g.modify id f).input? r = g.input? r :=
  input?_congr (map_get?_modify g id keeps same r.block)

theorem source?_modify (same : ∀ b, (f b).inputs = b.inputs) :
    (g.modify id f).source? r = g.source? r :=
  source?_congr (input?_modify r keeps same)

theorem output?_modify (same : ∀ b, (f b).outputs = b.outputs) :
    (g.modify id f).output? r = g.output? r :=
  output?_congr (map_get?_modify g id keeps same r.block)

theorem endpoints_modify (same : ∀ b, (f b).outputs = b.outputs) :
    (g.modify id f).endpoints r = g.endpoints r :=
  endpoints_congr (output?_modify r keeps same)

end Modify

/-! ## 3. Changes to single sockets -/

theorem getElem?_modify_at (items : Block → List α) (put : Block → List α → Block) (f : α → α)
    (g : Graph) (t r : SocketRef) (keeps : ∀ b xs, (put b xs).id = b.id)
    (holds : ∀ b xs, items (put b xs) = xs) :
    (((g.modify t.block fun b => put b ((items b).modify t.index f)).get? r.block).bind
        fun b => (items b)[r.index]?) =
      if r = t then ((g.get? r.block).bind fun b => (items b)[r.index]?).map f
      else (g.get? r.block).bind fun b => (items b)[r.index]? := by
  rw [get?_modify g t.block fun b => keeps b _]
  obtain ⟨rb, ri⟩ := r
  obtain ⟨tb, ti⟩ := t
  cases hb : g.get? rb with
  | none => simp
  | some b =>
    by_cases hblock : rb = tb
    · by_cases hindex : ti = ri
      · simp [hblock, hindex, holds]
      · have hne : ¬ri = ti := fun h => hindex h.symm
        simp [hblock, hindex, hne, holds]
    · simp [hblock]

theorem input?_setLink (g : Graph) (t r : SocketRef) (l : Option SocketRef) :
    (g.modify t.block (·.setLink t.index l)).input? r =
      if r = t then (g.input? r).map ({ · with link := l }) else g.input? r :=
  getElem?_modify_at inputs (fun b inputs => { b with inputs }) _ g t r
    (fun _ _ => rfl) (fun _ _ => rfl)

theorem output?_modifyOutput (g : Graph) (t r : SocketRef) (f : OutputSocket → OutputSocket) :
    (g.modify t.block (·.modifyOutput t.index f)).output? r =
      if r = t then (g.output? r).map f else g.output? r :=
  getElem?_modify_at outputs (fun b outputs => { b with outputs }) f g t r
    (fun _ _ => rfl) (fun _ _ => rfl)

theorem source?_setLink (g : Graph) (t r : SocketRef) (l : Option SocketRef) :
    (g.modify t.block (·.setLink t.index l)).source? r =
      if r = t then (g.input? t).bind fun _ => l else g.source? r := by
  unfold source?
  rw [input?_setLink]
  by_cases h : r = t
  · subst h
    cases g.input? r <;> simp
  · simp [h]

/-- A broken link is gone and every other link is as before. -/
theorem source?_unlink (g : Graph) (t r : SocketRef) :
    (g.modify t.block (·.setLink t.index none)).source? r =
      if r = t then none else g.source? r := by
  rw [source?_setLink]
  cases g.input? t <;> rfl

theorem endpoints_addEndpoint (g : Graph) (s t r : SocketRef) (h : (g.output? s).isSome) :
    (g.modify s.block (·.addEndpoint s.index t)).endpoints r =
      if r = s then g.endpoints r ++ [t] else g.endpoints r := by
  unfold endpoints addEndpoint
  rw [output?_modifyOutput]
  by_cases hr : r = s
  · subst hr
    obtain ⟨p, hp⟩ := isSome_iff_exists.mp h
    simp [hp]
  · simp [hr]

theorem endpoints_removeEndpoint (g : Graph) (s t r : SocketRef) :
    (g.modify s.block (·.removeEndpoint s.index t)).endpoints r =
      if r = s then (g.endpoints r).filter (· != t) else g.endpoints r := by
  unfold endpoints removeEndpoint
  rw [output?_modifyOutput]
  by_cases hr : r = s
  · subst hr
    cases g.output? r <;> simp
  · simp [hr]

/-! ## 4. Insertion and removal -/

theorem source?_insert (g : Graph) (name : String) (kind : Kind) (r : SocketRef) :
    (g.insert name kind).source? r = g.source? r := by
  unfold source? input?
  rw [get?_insert]
  cases g.get? r.block with
  | some b => simp
  | none =>
    by_cases h : r.block = g.freshId
    · simp [h, new, getElem?_map, bind_map]
    · simp [h]

theorem endpoints_insert (g : Graph) (name : String) (kind : Kind) (r : SocketRef) :
    (g.insert name kind).endpoints r = g.endpoints r := by
  unfold endpoints output?
  rw [get?_insert]
  cases g.get? r.block with
  | some b => simp
  | none =>
    by_cases h : r.block = g.freshId
    · simp only [h, if_true, none_or, bind_some, bind_none, new,
        getElem?_map, elim_none]
      cases kind.outputs[r.index]? <;> rfl
    · simp [h]

theorem origin?_insert (fresh : g.freshId ∉ g.ids) (name : String) (kind : Kind) (x : BlockId) :
    (g.insert name kind).origin? x =
      if x = g.freshId then kind.teleportEntry else g.origin? x := by
  unfold origin?
  rw [get?_insert]
  split
  · rename_i h
    rw [h, get?_eq_none_iff.mpr fresh]
    rfl
  · rw [or_none]

theorem isEntry_insert (name : String) (kind : Kind) (h : g.isEntry x = true) :
    (g.insert name kind).isEntry x = true := by
  obtain ⟨b, hb, hin⟩ := isEntry_iff.mp h
  exact isEntry_iff.mpr ⟨b, by rw [get?_insert, hb, some_or], hin⟩

theorem source?_without (g : Graph) (id : BlockId) (r : SocketRef) :
    (g.without id).source? r = if r.block = id then none else g.source? r := by
  unfold source? input?
  rw [get?_without]
  split <;> rfl

theorem endpoints_without (g : Graph) (id : BlockId) (r : SocketRef) :
    (g.without id).endpoints r = if r.block = id then [] else g.endpoints r := by
  unfold endpoints output?
  rw [get?_without]
  split <;> rfl

theorem origin?_without (g : Graph) (id x : BlockId) :
    (g.without id).origin? x = if x = id then none else g.origin? x := by
  unfold origin?
  rw [get?_without]
  split <;> rfl

theorem isEntry_without (g : Graph) (id x : BlockId) :
    (g.without id).isEntry x = (decide (x ≠ id) && g.isEntry x) := by
  unfold isEntry
  rw [get?_without]
  by_cases h : x = id <;> simp [h]

/-! ## 5. Detaching a block

The three parts of `detach` change one view each: the endpoints of the producers, the links of the
consumers, and the teleport entries. -/

theorem foldl_view {β γ : Type} (view : β → γ) {step : β → α → β}
    (same : ∀ y a, view (step y a) = view y) (items : List α) (y : β) :
    view (items.foldl step y) = view y := by
  induction items generalizing y with
  | nil => rfl
  | cons a rest ih => rw [foldl_cons, ih, same]

/-- One step of taking a block off its producers. -/
def dropEndpoint (id : BlockId) (g : Graph) (at_ : InputSocket × Nat) : Graph :=
  match at_.1.link with
  | some source => g.modify source.block (·.removeEndpoint source.index ⟨id, at_.2⟩)
  | none => g

def dropLink (g : Graph) (e : SocketRef) : Graph := g.modify e.block (·.setLink e.index none)

/-- Closes every teleport that enters at a block. -/
def dropEntries (g : Graph) (id : BlockId) : Graph :=
  { g with
    blocks := g.blocks.map fun other =>
      if other.kind.teleportEntry = some id then
        { other with kind := other.kind.setTeleportEntry none }
      else other }

theorem detach_eq (g : Graph) (b : Block) :
    g.detach b =
      (((b.outputs.flatMap OutputSocket.endpoints).foldl dropLink
        (b.inputs.zipIdx.foldl (dropEndpoint b.id) g)).dropEntries b.id) := by
  rw [foldl_flatMap]
  rfl

theorem source?_dropEndpoint (id : BlockId) (g : Graph) (at_ : InputSocket × Nat) (r : SocketRef) :
    (dropEndpoint id g at_).source? r = g.source? r := by
  unfold dropEndpoint
  split
  · exact source?_modify r (fun _ => rfl) fun _ => rfl
  · rfl

theorem endpoints_dropEndpoint (id : BlockId) (g : Graph) (at_ : InputSocket × Nat)
    (s : SocketRef) :
    (dropEndpoint id g at_).endpoints s =
      (g.endpoints s).filter fun e => ¬(at_.1.link = some s ∧ e = ⟨id, at_.2⟩) := by
  unfold dropEndpoint
  cases hp : at_.1.link with
  | none => simp
  | some source =>
    rw [endpoints_removeEndpoint]
    by_cases hs : source = s
    · subst hs
      simp only [if_true, true_and, decide_not]
      rfl
    · have hne : ¬s = source := fun h => hs h.symm
      simp [hs, hne]

/-- Taking a block off its producers removes exactly the endpoints that its links name. -/
theorem endpoints_dropEndpoints (id : BlockId) (g : Graph) (items : List (InputSocket × Nat))
    (s : SocketRef) :
    (items.foldl (dropEndpoint id) g).endpoints s =
      (g.endpoints s).filter fun e => ∀ a ∈ items, ¬(a.1.link = some s ∧ e = ⟨id, a.2⟩) := by
  induction items generalizing g with
  | nil => simp
  | cons a rest ih =>
    rw [List.foldl_cons, ih, endpoints_dropEndpoint, List.filter_filter]
    congr 1
    funext e
    rw [← Bool.decide_and]
    simp only [List.forall_mem_cons, and_comm]

theorem source?_dropLinks (g : Graph) (items : List SocketRef) (r : SocketRef) :
    (items.foldl dropLink g).source? r = if r ∈ items then none else g.source? r := by
  induction items generalizing g with
  | nil => simp
  | cons e rest ih =>
    rw [foldl_cons, ih]
    unfold dropLink
    rw [source?_unlink]
    by_cases hr : r = e <;> by_cases hrest : r ∈ rest <;> simp [hr, hrest]

theorem get?_dropEntries (g : Graph) (id x : BlockId) :
    (g.dropEntries id).get? x = (g.get? x).map fun other =>
      if other.kind.teleportEntry = some id then
        { other with kind := other.kind.setTeleportEntry none }
      else other :=
  get?_map g (fun b => by by_cases h : b.kind.teleportEntry = some id <;> simp [h]) x

theorem map_get?_dropEntries (g : Graph) (id x : BlockId)
    (same : ∀ b : Block, view { b with kind := b.kind.setTeleportEntry none } = view b) :
    ((g.dropEntries id).get? x).map view = (g.get? x).map view := by
  rw [get?_dropEntries, Option.map_map]
  congr 1
  funext b
  by_cases h : b.kind.teleportEntry = some id <;> simp [h, same]

theorem origin?_dropEntries (g : Graph) (id x : BlockId) :
    (g.dropEntries id).origin? x = if g.origin? x = some id then none else g.origin? x := by
  unfold origin?
  rw [get?_dropEntries]
  cases g.get? x with
  | none => simp
  | some b => by_cases h : b.kind.teleportEntry = some id <;> simp [h]

theorem isEntry_dropEntries (g : Graph) (id x : BlockId) :
    (g.dropEntries id).isEntry x = g.isEntry x := by
  unfold isEntry
  rw [get?_dropEntries]
  cases g.get? x with
  | none => rfl
  | some b => by_cases h : b.kind.teleportEntry = some id <;> simp [h]

theorem source?_detach (g : Graph) (b : Block) (r : SocketRef) :
    (g.detach b).source? r =
      if r ∈ b.outputs.flatMap OutputSocket.endpoints then none else g.source? r := by
  rw [detach_eq, source?_congr (input?_congr (map_get?_dropEntries _ _ _ fun _ => rfl)),
    source?_dropLinks, foldl_view (source? · r) fun g a => source?_dropEndpoint b.id g a r]

theorem endpoints_detach (g : Graph) (b : Block) (s : SocketRef) :
    (g.detach b).endpoints s = (g.endpoints s).filter fun e =>
      ∀ a ∈ b.inputs.zipIdx, ¬(a.1.link = some s ∧ e = ⟨b.id, a.2⟩) := by
  have links : ∀ (g : Graph) (e : SocketRef), (dropLink g e).endpoints s = g.endpoints s :=
    fun g e => endpoints_modify s (fun _ => rfl) fun _ => rfl
  rw [detach_eq, endpoints_congr (output?_congr (map_get?_dropEntries _ _ _ fun _ => rfl)),
    foldl_view (endpoints · s) links, endpoints_dropEndpoints]

theorem map_dropAll (hv : Unjoined view) (g : Graph) (b : Block) (x : BlockId) :
    (((b.outputs.flatMap OutputSocket.endpoints).foldl dropLink
        (b.inputs.zipIdx.foldl (dropEndpoint b.id) g)).get? x).map view =
      (g.get? x).map view := by
  have links : ∀ (g : Graph) (e : SocketRef),
      ((dropLink g e).get? x).map view = (g.get? x).map view :=
    fun g e => map_get?_modify g _ (by intro; rfl) (fun b => hv.setLink b _ _) x
  have producers : ∀ (g : Graph) a,
      ((dropEndpoint b.id g a).get? x).map view = (g.get? x).map view := by
    intro g a
    unfold dropEndpoint
    split
    · exact map_get?_modify g _ (by intro; rfl) (fun b => hv.modifyOutput b _ (by intro; rfl)) x
    · rfl
  rw [foldl_view (fun g : Graph => (g.get? x).map view) links,
    foldl_view (fun g : Graph => (g.get? x).map view) producers]

/-- The teleports that enter at a detached block are closed. -/
theorem origin?_detach (g : Graph) (b : Block) (x : BlockId) :
    (g.detach b).origin? x = if g.origin? x = some b.id then none else g.origin? x := by
  rw [detach_eq, origin?_dropEntries, origin?_congr (map_dropAll .of_kind g b x)]

theorem isEntry_detach (g : Graph) (b : Block) (x : BlockId) :
    (g.detach b).isEntry x = g.isEntry x := by
  rw [detach_eq, isEntry_dropEntries, isEntry_congr (map_dropAll .of_kind g b x)]

theorem ids_detach (g : Graph) (b : Block) : (g.detach b).ids = g.ids := by
  have endpoint : ∀ (g : Graph) a, (dropEndpoint b.id g a).ids = g.ids := by
    intro g a
    unfold dropEndpoint
    split
    · exact ids_modify ..
    · rfl
  have links : ∀ (g : Graph) e, (dropLink g e).ids = g.ids :=
    fun g e => ids_modify ..
  have entries : ∀ g : Graph, (g.dropEntries b.id).ids = g.ids := by
    intro g
    simp only [dropEntries, ids, List.map_map]
    congr 1
    funext other
    by_cases h : other.kind.teleportEntry = some b.id <;> simp [h]
  rw [detach_eq, entries, foldl_view ids links, foldl_view ids endpoint]

end Graph

end ShaderGraph
