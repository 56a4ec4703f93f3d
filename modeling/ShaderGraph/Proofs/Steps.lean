import Mathlib.Logic.Function.Iterate
import ShaderGraph.Proofs.Calls

/-!
# An emission step by step

A build with enough steps left is a sequence of small steps (`build_steps`): a free input is
reported, outputs are named, a value is carried over to the fragment stage, or a block is called. It
comes to its end unless it meets a teleport whose entry is gone (`Course`).
`Step` keeps, for each of them, what is known when it is made; above all, a block is called only
when every input that it reads in the stage is fed (`Fed`), and after its free inputs were reported
(`Reported`).

What a step can do to a block is said once, by `Step.advances`.
-/

namespace ShaderGraph

open List ShaderGraph.Graph Block Bool

/-- What the steps of an emission may do to a block. -/
structure Block.Advances (l : Language) (b b' : Block) : Prop where
  outline : b'.outline = b.outline
  settled : b.Settled l → b'.Settled l ∧ b'.outputs = b.outputs
  /-- An input that is enforced stays enforced. -/
  enforced : ∀ (i : Nat) (p : InputSocket), b.inputs[i]? = some p → p.enforced = true →
    ∃ p', b'.inputs[i]? = some p' ∧ p'.enforced = true

theorem Block.Advances.refl (l : Language) (b : Block) : b.Advances l b :=
  ⟨rfl, fun h => ⟨h, rfl⟩, fun _ p hp he => ⟨p, hp, he⟩⟩

theorem Graph.Coherent.exists_producer {g : Graph} (hg : g.Coherent) {x : BlockId} {b : Block}
    {i : Nat} {p : InputSocket} {s : SocketRef} (hb : g.get? x = some b)
    (hp : b.inputs[i]? = some p) (hl : p.link = some s) : ∃ q, g.get? s.block = some q := by
  have linked : g.source? ⟨x, i⟩ = some s :=
    source?_eq_some_iff.mpr ⟨p, input?_eq_some_iff.mpr ⟨b, hb, hp⟩, hl⟩
  exact mem_ids_iff.mp (hg.mem_ids_of_upstream (upstream_of_source? linked))

namespace Emission

open Relation

variable {e e' : Emission} {stage : Stage} {id : BlockId} {g : Graph} {l : Language}
  {T : BlockId → Prop} {teleported : List Slot} {b c b' c' block : Block} {x : BlockId}
  {made : BuildCall} {source r : SocketRef} {symbol : String} {nodes : List BlockId}

/-! ## 1. Steps -/

/-- Only a varying brings the value of the producer to the input of the consumer. -/
def Crosses (producer consumer : Block) (socket : SocketSpec) : Prop :=
  switchesStage producer consumer socket = true ∧ needsVarying producer = true

/-- An input that may be read: if it is looked at in the stage, what feeds it is built, and in the
fragment stage it reads a varying where only a varying will do. -/
def Fed (stage : Stage) (e : Emission) (r : SocketRef) : Prop :=
  ∀ (c : Block) (p : InputSocket) (s : SocketRef), e.graph.get? r.block = some c →
    c.inputs[r.index]? = some p → p.link = some s → isProcessed c stage p.spec = true →
    s.block ∈ e.built ∧ (stage = .fragment → p.enforced = true ∨
      ∀ producer, e.graph.get? s.block = some producer → ¬Crosses producer c p.spec)

/-- The outputs of a block have symbols, unless the block chooses them itself. -/
def Labelled (l : Language) (e : Emission) (id : BlockId) : Prop :=
  ∀ b, e.graph.get? id = some b → b.kind.isInput = false → b.Settled l

/-- What has come out of a teleport. -/
inductive Arrived (stage : Stage) (e : Emission) (entry : BlockId) (slot : Slot) : Prop
  | free : slot.connected = false → slot.symbol = "" → Arrived stage e entry slot
  | crossing {source : SocketRef} {producer : Block} : e.graph.source? ⟨entry, 0⟩ = some source →
      e.graph.get? source.block = some producer → ComesFromVertex stage producer →
      slot.symbol =
        e.fragment.language.varyingRef .fragment (varyingName (e.graph.symbolAt source)) →
      e.ledger.hasVarying (varyingName (e.graph.symbolAt source)) = true →
      Arrived stage e entry slot
  | reading {socket : InputSocket} {source : SocketRef} {producer : Block} :
      e.graph.input? ⟨entry, 0⟩ = some socket → socket.link = some source →
      e.graph.get? source.block = some producer → ¬ComesFromVertex stage producer →
      slot.symbol = readSymbol e.graph socket → Arrived stage e entry slot

/-- The slots that teleports hand to a block. -/
def Teleported (stage : Stage) (e : Emission) (b : Block) (teleported : List Slot) : Prop :=
  match b.kind.teleportEntry with
  | none => teleported = []
  | some entry => entry ∈ e.built ∧
    ∃ slot, teleported = [slot] ∧ slot.name = "entry" ∧ Arrived stage e entry slot

/-- What the block lacks was reported. -/
def Reported (e : Emission) (id : BlockId) : Prop :=
  ∀ b u, e.graph.get? id = some b → b.Lacks u → u ∈ e.ledger.unconnected

/-- One step of an emission that builds the blocks of `T` for a stage. -/
inductive Step (l : Language) (stage : Stage) (T : BlockId → Prop) : Emission → Emission → Prop
  | report {e : Emission} {id : BlockId} {b : Block} (u : UnconnectedInput) : T id →
      e.graph.get? id = some b → b.Lacks u →
      Step l stage T e { e with ledger := e.ledger.reportUnconnected u }
  | name {e : Emission} {id : BlockId} {b : Block} :
      e.graph.get? id = some b → Step l stage T e (e.nameBlock b)
  /-- An input of `T` is made to read a varying. -/
  | route {e e₁ : Emission} {consumer : BlockId} {c producer : Block} {i : Nat} {p : InputSocket}
      {source : SocketRef} {symbol : String} : stage = .fragment → T consumer →
      e.graph.get? consumer = some c → c.inputs[i]? = some p → p.link = some source →
      e.graph.get? source.block = some producer → source.block ∈ e.built →
      Crosses producer c p.spec → Carried source e e₁ symbol →
      Step l stage T e { e₁ with
        graph := e₁.graph.modify consumer
          (·.modifyInput i fun p => { p with symbol, enforced := true }) }
  /-- A teleport brings a value over. -/
  | carry {e e' : Emission} {source : SocketRef} {symbol : String} : stage = .fragment →
      Carried source e e' symbol → Step l stage T e e'
  | call {e e' : Emission} {id : BlockId} {teleported : List Slot} : T id → id ∉ e.built →
      (∀ i, Fed stage e ⟨id, i⟩) → Labelled l e id →
      (∀ b, e.graph.get? id = some b → Teleported stage e b teleported) →
      e.call stage id teleported = .ok e' → Reported e id → Step l stage T e e'

abbrev Steps (l : Language) (stage : Stage) (T : BlockId → Prop) : Emission → Emission → Prop :=
  ReflTransGen (Step l stage T)

/-! ## 2. What a step does -/

/-- What stays as it is for a whole pass. -/
structure Steady (g : Graph) (l : Language) (e : Emission) : Prop where
  outlines : e.graph.outlines = g.outlines
  counter : e.graph.nextId = g.nextId
  language : ∀ stage, (e.draft stage).language = l

/-- A pass over a regular graph is going on. -/
structure Ongoing (g : Graph) (l : Language) (e : Emission) : Prop extends Steady g l e where
  outset : g.Regular

theorem Ongoing.regular (h : Ongoing g l e) : e.graph.Regular := h.outset.of_outlines h.outlines

theorem Ongoing.closed (h : Ongoing g l e) (closed : ∀ x y, T x → g.Upstream x y → T y) :
    ∀ x y, T x → e.graph.Upstream x y → T y := by
  rwa [upstream_of_outlines h.outlines]

theorem Ongoing.distinct (h : Ongoing g l e) : e.graph.ids.Nodup :=
  h.regular.coherent.distinct

theorem Ongoing.enough (h : Ongoing g l e) (hid : id ∈ g.ids) :
    g.depth id + 1 < e.graph.blocks.length + 1 := by
  rw [length_of_outlines h.outlines]
  exact Nat.succ_lt_succ (depth_lt_length h.outset.acyclic hid)

theorem Ongoing.called (h : Ongoing g l e) (hcall : e.call stage id teleported = .ok e') :
    ∃ b b' made, Called stage id teleported e e' b b' made :=
  call_spec h.distinct (fun b hb => h.regular.fitted id b hb) hcall

/-- A graph in which one block at most has advanced. -/
structure Touched (l : Language) (g g' : Graph) : Prop where
  advances : ∀ x c, g.get? x = some c →
    ∃ c', g'.get? x = some c' ∧ c.Advances l c' ∧ c'.builtIn = c.builtIn
  outlines : g'.outlines = g.outlines
  counter : g'.nextId = g.nextId

theorem Touched.refl (g : Graph) : Touched l g g :=
  ⟨fun _ c hc => ⟨c, hc, .refl l c, rfl⟩, rfl, rfl⟩

theorem Touched.modify {f : Block → Block} (distinct : g.ids.Nodup) (keeps : ∀ b, (f b).id = b.id)
    (hb : g.get? id = some b) (hf : b.Advances l (f b)) (stays : (f b).builtIn = b.builtIn) :
    Touched l g (g.modify id f) where
  advances x c hc := by
    rw [get?_modify _ _ keeps]
    by_cases hx : x = id
    · rw [if_pos hx, hc]
      obtain rfl : b = c := by
        rw [hx, hb] at hc
        exact Option.some.inj hc
      exact ⟨f b, rfl, hf, stays⟩
    · rw [if_neg hx]
      exact ⟨c, hc, .refl l c, rfl⟩
  outlines := outlines_modify distinct hb hf.outline
  counter := rfl

def named (ledger : Ledger) (b c : Block) : Block :=
  { c with outputs := (nameOutputs ledger b.outputs).1 }

theorem advances_named (ledger : Ledger) (h : b.kind.isInput = false) :
    b.Advances l (named ledger b b) where
  outline := by
    have same := map_nameOutputs (fun p => (p.spec, p.endpoints)) (fun _ _ => rfl) ledger b.outputs
    simp [named, Block.outline, Block.target, same]
  settled hs := by
    have same : (nameOutputs ledger b.outputs).1 = b.outputs := by
      rw [nameOutputs_eq_self ledger ((settled_iff h).mp hs)]
    rw [named, same]
    exact ⟨hs, rfl⟩
  enforced _ p hp he := ⟨p, hp, he⟩

theorem settled_named (ledger : Ledger) (h : b.kind.isInput = false) :
    (named ledger b b).Settled l := by
  refine (settled_iff (b := named ledger b b) h).mpr fun p hp => ?_
  exact nameOutputs_symbol_ne hp

theorem nameBlock_eq (hb : e.graph.get? id = some b) : (b.kind.isInput = true ∧ e.nameBlock b = e) ∨
      (b.kind.isInput = false ∧ e.nameBlock b =
        { e with
          graph := e.graph.modify id (named e.ledger b)
          ledger := (nameOutputs e.ledger b.outputs).2 }) := by
  unfold nameBlock
  cases h : b.kind.isInput with
  | true => exact .inl ⟨rfl, rfl⟩
  | false => exact .inr ⟨rfl, by rw [id_of_get? hb]; rfl⟩

def enforced (i : Nat) (symbol : String) (b : Block) : Block :=
  b.modifyInput i fun p => { p with symbol, enforced := true }

theorem advances_enforced (i : Nat) (symbol : String) (b : Block) :
    b.Advances l (enforced i symbol b) where
  outline := by
    have same : ((enforced i symbol b).inputs.map fun p => (p.spec, p.link)) =
        b.inputs.map fun p => (p.spec, p.link) :=
      map_modify_of_keeps b.inputs i fun _ => rfl
    simp only [Block.outline, Block.Outline.mk.injEq, same]
    exact ⟨rfl, rfl, rfl, rfl, rfl, rfl, trivial, rfl⟩
  settled hs := ⟨hs, rfl⟩
  enforced j p hp he := by
    simp only [enforced, Block.modifyInput, getElem?_modify, hp]
    by_cases hij : i = j
    · exact ⟨{ p with symbol, enforced := true }, by simp [hij], rfl⟩
    · exact ⟨p, by simp [hij], he⟩

theorem Called.advances (h : Called stage id teleported e e' b b' made)
    (hl : (e.draft stage).language = l) (hid : id ∉ e.built) (hc : e.graph.get? x = some c) :
    ∃ c', e'.graph.get? x = some c' ∧ c.Advances l c' ∧
      (x ∈ e.built → c'.builtIn = c.builtIn) := by
  rw [h.get?]
  by_cases hx : x = id
  · obtain rfl : b = c := by
      have := h.before
      rw [← hx, hc] at this
      exact (Option.some.inj this).symm
    refine ⟨b', if_pos hx, ⟨h.outline, ?_, ?_⟩, fun hbuilt => absurd (hx ▸ hbuilt) hid⟩
    · intro hs
      refine ⟨hl ▸ h.settled fun hin => (settled_iff hin).mp hs, h.again (hl ▸ hs)⟩
    · intro i p hp he
      exact ⟨p, by rw [h.inputs]; exact hp, he⟩
  · exact ⟨c, by rw [if_neg hx, hc], .refl l c, fun _ => rfl⟩

theorem Carried.hasVarying (h : Carried source e e' symbol) :
    e'.ledger.hasVarying (varyingName (e.graph.symbolAt source)) = true := by
  rcases h.rest with ⟨known, same, -⟩ | ⟨type, added, -⟩
  · rw [same]
    exact known
  · rw [added, Ledger.hasVarying, any_eq_true]
    obtain ⟨v, hv, hname⟩ := exists_mem_declare VaryingDecl.name
      { name := varyingName (e.graph.symbolAt source), type } e.ledger.varyings
    exact ⟨v, hv, beq_iff_eq.mpr hname⟩

theorem Called.drafts (h : Called stage id teleported e e' b b' made) (s : Stage) :
    (e.draft s).Grows (e'.draft s) := by
  by_cases hs : s = stage
  · rw [hs]
    exact h.draft
  · cases stage with
    | vertex =>
      cases s with
      | vertex => exact absurd rfl hs
      | fragment =>
        rw [Emission.draft, Emission.draft, h.fragment rfl]
        exact .refl _
    | fragment =>
      cases s with
      | fragment => exact absurd rfl hs
      | vertex =>
        rcases h.vertex rfl with same | ⟨decl, changed⟩
        · rw [Emission.draft, Emission.draft, same]
          exact .refl _
        · rw [Emission.draft, Emission.draft, changed]
          exact .addAttribute _ _

/-- A call and what is known when it is made. -/
structure Calling (l : Language) (stage : Stage) (T : BlockId → Prop) (id : BlockId)
    (brought : List Slot) (e e' : Emission) (b b' : Block) (made : BuildCall) : Prop extends
    Called stage id brought e e' b b' made where
  call : e.call stage id brought = .ok e'
  member : T id
  fresh : id ∉ e.built
  fed : ∀ i, Fed stage e ⟨id, i⟩
  labelled : Labelled l e id
  arrived : Teleported stage e b brought
  reported : Reported e id

/-- What a step leaves that is not a call. -/
structure Quiet (l : Language) (stage : Stage) (T : BlockId → Prop) (e e' : Emission) : Prop where
  calls : e'.calls = e.calls
  built : e'.built = e.built
  graph : Touched l e.graph e'.graph
  fragment : e'.fragment = e.fragment
  vertex : e'.vertex = e.vertex ∨ stage = .fragment ∧ ∃ line, e'.vertex = e.vertex.push line
  ledger : e.ledger.Grows e'.ledger ∨ (∃ id b u, T id ∧ e.graph.get? id = some b ∧ b.Lacks u ∧
      e'.ledger = e.ledger.reportUnconnected u) ∨
    stage = .fragment ∧ ∃ v, e'.ledger = e.ledger.addVarying v

theorem Carried.quiet {g' : Graph} (h : Carried source e e' symbol) (hstage : stage = .fragment)
    (touched : Touched l e.graph g') : Quiet l stage T e { e' with graph := g' } := by
  rcases h.rest with ⟨-, ledger, vertex⟩ | ⟨type, ledger, vertex⟩
  · exact ⟨h.calls, h.built, touched, h.fragment, .inl vertex, .inl (ledger ▸ .refl _)⟩
  · exact ⟨h.calls, h.built, touched, h.fragment, .inr ⟨hstage, _, vertex⟩,
      .inr (.inr ⟨hstage, _, ledger⟩)⟩

variable (hs : Ongoing g l e) (h : Step l stage T e e')

include hs h in
/-- What a step can do. -/
theorem Step.quiet_or_calling :
    Quiet l stage T e e' ∨ ∃ id brought b b' made, Calling l stage T id brought e e' b b' made := by
  have distinct := hs.distinct
  cases h with
  | report u hT hb lacks =>
    exact .inl ⟨rfl, rfl, .refl _, rfl, .inl rfl, .inr (.inl ⟨_, _, u, hT, hb, lacks, rfl⟩)⟩
  | name hb =>
    rcases nameBlock_eq hb with ⟨-, same⟩ | ⟨hin, changed⟩
    · rw [same]
      exact .inl ⟨rfl, rfl, .refl _, rfl, .inl rfl, .inl (.refl _)⟩
    · rw [changed]
      exact .inl ⟨rfl, rfl, .modify distinct (by intro; rfl) hb (advances_named e.ledger hin) rfl,
        rfl, .inl rfl, .inl (grows_nameOutputs _ _)⟩
  | @route e₁ consumer c producer i p source symbol hstage hT hconsumer hi hl hp hbuilt hcross
      hcarried =>
    rw [hcarried.graph]
    exact .inl (hcarried.quiet hstage
      (.modify distinct (by intro; rfl) hconsumer (advances_enforced i symbol c) rfl))
  | carry hstage hcarried => exact .inl (hcarried.quiet hstage (hcarried.graph ▸ .refl _))
  | call hT hid hfed hlabel htele hcall hreported =>
    obtain ⟨b, b', made, hcalled⟩ := hs.called hcall
    exact .inr ⟨_, _, b, b', made,
      { hcalled with
        call := hcall, member := hT, fresh := hid, fed := hfed, labelled := hlabel
        arrived := htele b hcalled.before, reported := hreported }⟩

include hs h in
theorem Step.advances
    (hc : e.graph.get? x = some c) : ∃ c', e'.graph.get? x = some c' ∧ c.Advances l c' ∧
      (x ∈ e.built → c'.builtIn = c.builtIn) := by
  rcases h.quiet_or_calling hs with quiet | ⟨_, _, _, _, _, calling⟩
  · obtain ⟨c', hc', hadv, hstays⟩ := quiet.graph.advances x c hc
    exact ⟨c', hc', hadv, fun _ => hstays⟩
  · exact calling.advances (hs.language stage) calling.fresh hc

include hs h in
theorem Step.draft (s : Stage) :
    (e.draft s).Grows (e'.draft s) := by
  rcases h.quiet_or_calling hs with quiet | ⟨_, _, _, _, _, calling⟩
  · cases s with
    | fragment =>
      rw [Emission.draft, Emission.draft, quiet.fragment]
      exact .refl _
    | vertex =>
      rw [Emission.draft, Emission.draft]
      rcases quiet.vertex with same | ⟨-, line, pushed⟩
      · exact same ▸ .refl _
      · exact pushed ▸ .push _ _
  · exact calling.drafts s

include hs h in
theorem Step.steady : Ongoing g l e' := by
  have language : ∀ s, (e'.draft s).language = l :=
    fun s => ((h.draft hs s).language).trans (hs.language s)
  rcases h.quiet_or_calling hs with quiet | ⟨_, _, _, _, _, calling⟩
  · exact ⟨⟨quiet.graph.outlines.trans hs.outlines, quiet.graph.counter.trans hs.counter, language⟩,
      hs.outset⟩
  · exact ⟨⟨calling.outlines.trans hs.outlines, calling.counter.trans hs.counter, language⟩,
      hs.outset⟩

include hs h in
theorem Step.built_subset : e.built ⊆ e'.built := by
  rcases h.quiet_or_calling hs with quiet | ⟨_, _, _, _, _, calling⟩
  · exact quiet.built ▸ List.Subset.refl _
  · exact calling.built ▸ subset_cons_self _ _

include hs h in
/-- A step reports nothing, or what a block of `T` lacks. -/
theorem Step.unconnected : e'.ledger.unconnected = e.ledger.unconnected ∨
      ∃ id b u, T id ∧ e.graph.get? id = some b ∧ b.Lacks u ∧
        e'.ledger.unconnected = pushNew u e.ledger.unconnected := by
  rcases h.quiet_or_calling hs with quiet | ⟨_, _, _, _, _, calling⟩
  · rcases quiet.ledger with grows | ⟨id, b, u, hT, hb, lacks, reported⟩ | ⟨-, v, added⟩
    · exact .inl grows.unconnected
    · exact .inr ⟨id, b, u, hT, hb, lacks, by rw [reported]; rfl⟩
    · exact .inl (by rw [added]; rfl)
  · exact .inl calling.ledger.unconnected

include hs h in
theorem Step.unconnected_subset : e.ledger.unconnected ⊆ e'.ledger.unconnected := by
  rcases h.unconnected hs with same | ⟨id, b, u, -, -, -, added⟩
  · rw [same]
    exact List.Subset.refl _
  · rw [added]
    exact subset_pushNew _ _

/-! ## 3. What lasts -/

theorem Steps.steady (hs : Ongoing g l e) (h : Steps l stage T e e') :
    Ongoing g l e' := by
  induction h with
  | refl => exact hs
  | tail _ hstep ih => exact hstep.steady ih

/-- What every step keeps lasts, as long as the outlines do. -/
theorem Steps.lasts {P : Emission → Prop}
    (step : ∀ e e', Ongoing g l e → Step l stage T e e' → P e → P e') (hs : Ongoing g l e)
    (h : Steps l stage T e e') (hp : P e) : P e' := by
  induction h with
  | refl => exact hp
  | tail hsteps hstep ih => exact step _ _ (Steps.steady hs hsteps) hstep ih

include hs h in
theorem Step.advances_back (hc' : e'.graph.get? x = some c') :
    ∃ c, e.graph.get? x = some c ∧ c.Advances l c' ∧ (x ∈ e.built → c'.builtIn = c.builtIn) := by
  have same : e.graph.outlines = e'.graph.outlines :=
    hs.outlines.trans (h.steady hs).outlines.symm
  obtain ⟨c, hc, -⟩ := exists_get?_of_outlines same hc'
  obtain ⟨c'', hc'', hadv⟩ := h.advances hs hc
  cases hc'.symm.trans hc''
  exact ⟨c, hc, hadv⟩

theorem Crosses.congr {p p' : Block} {socket : SocketSpec} (hp : p'.outline = p.outline)
    (hbuilt : p'.builtIn = p.builtIn) (hc : c'.outline = c.outline) (h : Crosses p' c' socket) :
    Crosses p c socket := by
  unfold Crosses switchesStage needsVarying staysInVertex at *
  rw [target_of_outline hp, target_of_outline hc, isInput_of_outline hp,
    isAttribute_of_outline hp, hbuilt] at h
  exact h

include hs h in
/-- An input that is fed stays fed: what feeds it is built and is not built again in the stage. -/
theorem Fed.step (hfed : Fed stage e r) : Fed stage e' r := by
  intro c' p' s hc' hp' hl' hprocessed
  obtain ⟨c, hc, hadv, -⟩ := h.advances_back hs hc'
  obtain ⟨p, hp, hspec, hlink⟩ := input_of_outline hadv.outline.symm hp'
  have hprocessed' : isProcessed c stage p.spec = true := by
    unfold isProcessed at hprocessed ⊢
    rwa [hspec, ← target_of_outline hadv.outline]
  obtain ⟨hbuilt, hread⟩ := hfed c p s hc hp (hlink.trans hl') hprocessed'
  refine ⟨h.built_subset hs hbuilt, fun hstage => ?_⟩
  rcases hread hstage with he | hstays
  · obtain ⟨p'', hp'', he''⟩ := hadv.enforced _ p hp he
    cases hp'.symm.trans hp''
    exact .inl he''
  · refine .inr fun q' hq' hcross => ?_
    obtain ⟨q, hq, hqadv, hqbuilt⟩ := h.advances_back hs hq'
    rw [← hspec] at hcross
    exact hstays q hq (hcross.congr hqadv.outline (hqbuilt hbuilt) hadv.outline)

theorem Fed.steps (hs : Ongoing g l e) (h : Steps l stage T e e')
    (hfed : Fed stage e r) : Fed stage e' r :=
  Steps.lasts (P := fun e => Fed stage e r) (fun _ _ hs hstep hfed => hfed.step hs hstep) hs h
    hfed

theorem Steps.built_subset (hs : Ongoing g l e) (h : Steps l stage T e e') :
    e.built ⊆ e'.built :=
  Steps.lasts (P := fun e₁ => e.built ⊆ e₁.built)
    (fun _ _ hs hstep hsub => List.Subset.trans hsub (hstep.built_subset hs)) hs h
    (List.Subset.refl _)

theorem Steps.unconnected_subset (hs : Ongoing g l e) (h : Steps l stage T e e') :
    e.ledger.unconnected ⊆ e'.ledger.unconnected :=
  Steps.lasts (P := fun e₁ => e.ledger.unconnected ⊆ e₁.ledger.unconnected)
    (fun _ _ hs hstep hsub => List.Subset.trans hsub (hstep.unconnected_subset hs)) hs h
    (List.Subset.refl _)

include hs h in
theorem Labelled.step (hlabel : Labelled l e id) : Labelled l e' id := by
  intro b' hb' hin
  obtain ⟨b, hb, hadv, -⟩ := h.advances_back hs hb'
  rw [isInput_of_outline hadv.outline] at hin
  exact (hadv.settled (hlabel b hb hin)).1

theorem Labelled.steps (hs : Ongoing g l e) (h : Steps l stage T e e')
    (hlabel : Labelled l e id) : Labelled l e' id :=
  Steps.lasts (P := fun e => Labelled l e id) (fun _ _ hs hstep hl => hl.step hs hstep) hs h
    hlabel

theorem labelled_nameBlock (hb : e.graph.get? id = some b) : Labelled l (e.nameBlock b) id := by
  intro c hc hin
  rcases nameBlock_eq hb with ⟨hinput, same⟩ | ⟨hinput, changed⟩
  · rw [same, hb] at hc
    cases hc
    rw [hinput] at hin
    cases hin
  · rw [changed] at hc
    rw [get?_modify, if_pos rfl, hb] at hc
    cases hc
    exact settled_named e.ledger hinput

/-! ## 4. A build is a sequence of steps -/

/-- A part of an emission for the blocks of `T` ends, or its steps lead to a teleport whose entry is
not in the graph. It does not matter which of several functions is run. -/
inductive Course (g : Graph) (l : Language) (stage : Stage) (T : BlockId → Prop) (e : Emission)
    {ι α : Type} (f : ι → Except Halt α) (Q : α → Prop) : Prop
  | ends (a : α) : (∀ n, f n = .ok a) → Q a → Course g l stage T e f Q
  | halts (e' : Emission) (y x : BlockId) :
      (∀ n, f n = .error ⟨.missingBlock x, e'.graph⟩) → Steps l stage T e e' → T y →
      g.origin? y = some x → x ∉ g.ids → Course g l stage T e f Q

namespace Course

variable {ι α β : Type} {f : ι → Except Halt α} {k : ι → α → Except Halt β} {Q Q' : α → Prop}
  {R : β → Prop}

theorem bind (h : Course g l stage T e f Q)
    (next : ∀ a, Q a → Course g l stage T e (fun n => k n a) R) :
    Course g l stage T e (fun n => f n >>= k n) R := by
  cases h with
  | ends a all holds =>
    have same : (fun n => f n >>= k n) = fun n => k n a := by
      funext n
      rw [all]
      rfl
    rw [same]
    exact next a holds
  | halts e' y x all steps hy origin gone =>
    exact .halts e' y x (fun n => by rw [all]; rfl) steps hy origin gone

theorem after (h : Course g l stage T e' f Q) (path : Steps l stage T e e')
    (onward : ∀ a, Q a → Q' a) : Course g l stage T e f Q' := by
  cases h with
  | ends a all holds => exact .ends a all (onward a holds)
  | halts e' y x all steps => exact .halts e' y x all (path.trans steps) ‹_› ‹_› ‹_›

theorem of_ok {n : ι} {a : α} (h : Course g l stage T e f Q) (ended : f n = .ok a) : Q a := by
  cases h with
  | ends a' all holds => exact Except.ok.inj ((all n).symm.trans ended) ▸ holds
  | halts e' y x all => exact nomatch (all n).symm.trans ended

end Course

theorem exists_carry (hb : e.graph.get? source.block = some b) :
    ∃ carried, e.carry source = .ok carried := by
  unfold carry
  simp only [find_of_get? hb, bind, Except.bind]
  split <;> exact ⟨_, rfl⟩

/-- An input is made to read a varying exactly if only a varying will do. -/
theorem exists_route {consumer : BlockId} {q : Block} {i : Nat} {p : InputSocket}
    (hc : e.graph.get? consumer = some c) (hi : c.inputs[i]? = some p) (hl : p.link = some source)
    (hq : e.graph.get? source.block = some q) :
    ∃ e', e.route consumer i source.block = .ok e' ∧ ((¬Crosses q c p.spec ∧ e' = e) ∨
      Crosses q c p.spec ∧ ∃ e₁ symbol, Carried source e e₁ symbol ∧
        e' = { e₁ with graph := e₁.graph.modify consumer (enforced i symbol) }) := by
  obtain ⟨⟨symbol, e₁⟩, hcarry⟩ := exists_carry hq
  unfold route
  simp only [find_of_get? hc, find_of_get? hq, hi, hl, hcarry, bind, Except.bind]
  split
  · rename_i hcross
    exact ⟨_, rfl, .inr ⟨and_eq_true_iff.mp hcross, e₁, symbol, carry_spec hcarry, rfl⟩⟩
  · rename_i hcross
    rw [and_eq_true] at hcross
    exact ⟨e, rfl, .inl ⟨hcross, rfl⟩⟩

theorem exists_inputSlot {p : InputSocket}
    (there : ∀ s, p.link = some s → ∃ q, g.get? s.block = some q) (i : Nat) :
    ∃ slot, inputSlot g b p i = .ok slot := by
  unfold inputSlot
  split
  · exact ⟨_, rfl⟩
  · cases hl : p.link with
    | none => exact ⟨_, rfl⟩
    | some s =>
      obtain ⟨q, hq⟩ := there s hl
      simp only [find_of_get? hq, bind, Except.bind]
      exact ⟨_, rfl⟩

theorem exists_inputSlots {items : List (InputSocket × Nat)}
    (there : ∀ a ∈ items, ∀ s, a.1.link = some s → ∃ q, g.get? s.block = some q) (l : Ledger) :
    ∃ slots, inputSlots g b items l = .ok slots := by
  induction items generalizing l with
  | nil => exact ⟨_, rfl⟩
  | cons a rest ih =>
    rw [forall_mem_cons] at there
    obtain ⟨⟨slot, problem⟩, hslot⟩ := exists_inputSlot (b := b) there.1 a.2
    obtain ⟨slots, hslots⟩ := ih there.2 (problem.elim l l.addError)
    refine ⟨(slot :: slots.1, slots.2), ?_⟩
    simp only [inputSlots, hslot, hslots, bind, Except.bind]
    rfl

theorem exists_teleportSlot (stage : Stage) (hg : e.graph.Coherent)
    (hb : e.graph.get? id = some b) : ∃ slot, e.teleportSlot stage id = .ok slot := by
  unfold teleportSlot
  simp only [find_of_get? hb, bind, Except.bind]
  cases hin : b.inputs with
  | nil => exact ⟨_, rfl⟩
  | cons socket others =>
    dsimp only
    cases hl : socket.link with
    | none => exact ⟨_, rfl⟩
    | some source =>
      obtain ⟨q, hq⟩ := hg.exists_producer (i := 0) hb (by rw [hin]; rfl) hl
      obtain ⟨carried, hcarry⟩ := exists_carry hq
      simp only [find_of_get? hq, hcarry]
      split <;> exact ⟨_, rfl⟩

theorem exists_call (stage : Stage) (hg : e.graph.Coherent) (hb : e.graph.get? id = some b)
    (teleported : List Slot) : ∃ e', e.call stage id teleported = .ok e' := by
  have there : ∀ a ∈ b.inputs.zipIdx, ∀ s, a.1.link = some s →
      ∃ q, e.graph.get? s.block = some q := fun a ha s hl =>
    hg.exists_producer hb (mem_zipIdx_iff_getElem?.mp ha) hl
  obtain ⟨slots, hslots⟩ := exists_inputSlots (b := b) there e.ledger
  unfold call
  simp only [find_of_get? hb, hslots, bind, Except.bind]
  exact ⟨_, rfl⟩

/-- An input that was looked at: it is fed, and reported if it is required and free. -/
def Attended (stage : Stage) (e : Emission) (block : Block) (a : InputSocket × Nat) : Prop :=
  Fed stage e ⟨block.id, a.2⟩ ∧ (a.1.link = none → a.1.spec.optional = false →
    ⟨a.1.spec.name, block.name, block.className⟩ ∈ e.ledger.unconnected)

theorem Attended.steps (hs : Ongoing g l e) (h : Steps l stage T e e')
    {a : InputSocket × Nat} (ha : Attended stage e block a) : Attended stage e' block a :=
  ⟨ha.1.steps hs h, fun free required => h.unconnected_subset hs (ha.2 free required)⟩

section Feed

section Input

variable {build : BlockId → Emission → Except Halt Emission} {block : Block}
  {socket : InputSocket} {source : SocketRef} {i : Nat} {rest : List (InputSocket × Nat)}

/-- What feeds an input is routed in the fragment stage. -/
def routeIn (e : Emission) (stage : Stage) (consumer : BlockId) (index : Nat)
    (producer : BlockId) : Except Halt Emission :=
  if stage = .fragment then e.orHalt (e.route consumer index producer) else pure e

/-- An input that is looked at: what feeds it is built, and routed in the fragment stage. -/
theorem feed_of_looked (hl : socket.link = some source)
    (looked : (isProcessed block stage socket.spec && source.block != block.id) = true) :
    feed build stage block ((socket, i) :: rest) e =
      build source.block e >>= fun e₁ =>
        e₁.routeIn stage block.id i source.block >>= fun e₂ => feed build stage block rest e₂ := by
  rw [feed]
  simp only [hl, looked, if_true]
  cases stage <;> rfl

theorem feed_of_skipped (hl : socket.link = some source)
    (skipped : (isProcessed block stage socket.spec && source.block != block.id) = false) :
    feed build stage block ((socket, i) :: rest) e = feed build stage block rest e := by
  rw [feed]
  simp only [hl, skipped, false_eq_true, if_false]

end Input

variable {block b₀ : Block} (hb₀ : g.get? block.id = some b₀) (hblock : block.outline = b₀.outline)
  {i : Nat} {socket : InputSocket} {source : SocketRef}
include hb₀ hblock

theorem Ongoing.current (hs : Ongoing g l e) :
    ∃ c, e.graph.get? block.id = some c ∧ c.outline = block.outline := by
  obtain ⟨c, hc, same⟩ := exists_get?_of_outlines hs.outlines hb₀
  exact ⟨c, hc, same.trans hblock.symm⟩

theorem upstream_of_link (hi : block.inputs[i]? = some socket) (hl : socket.link = some source) :
    g.Upstream block.id source.block := by
  obtain ⟨p, hp, -, hlink⟩ := input_of_outline hblock.symm hi
  refine upstream_of_source? (r := ⟨block.id, i⟩) (source?_eq_some_iff.mpr ?_)
  exact ⟨p, input?_eq_some_iff.mpr ⟨b₀, hb₀, hp⟩, hlink.trans hl⟩

theorem fed_of_unread (hs : Ongoing g l e) (hi : block.inputs[i]? = some socket)
    (unread : ∀ s, socket.link = some s → isProcessed block stage socket.spec = false) :
    Fed stage e ⟨block.id, i⟩ := by
  intro c p s hc hp hl hprocessed
  obtain ⟨c', hc', same⟩ := hs.current hb₀ hblock
  cases hc.symm.trans hc'
  obtain ⟨p', hp', hspec, hlink⟩ := input_of_outline same hi
  cases hp.symm.trans hp'
  unfold isProcessed at hprocessed unread
  rw [hspec, target_of_outline same, unread s (hlink.symm.trans hl)] at hprocessed
  cases hprocessed

/-- Once its producer is built an input can be routed, and is fed then. -/
theorem fed_of_route (stage : Stage) (hT : T block.id) (hs : Ongoing g l e)
    (hi : block.inputs[i]? = some socket) (hl : socket.link = some source)
    (hbuilt : source.block ∈ e.built) :
    ∃ e', e.routeIn stage block.id i source.block = .ok e' ∧
      Steps l stage T e e' ∧ Fed stage e' ⟨block.id, i⟩ := by
  obtain ⟨c, hc, same⟩ := hs.current hb₀ hblock
  obtain ⟨p, hp, hspec, hlink⟩ := input_of_outline same hi
  have hsource : p.link = some source := hlink.trans hl
  obtain ⟨q, hq⟩ := hs.regular.coherent.exists_producer hc hp hsource
  -- an input that is not made to read a varying is fed as soon as its producer is built
  have stays : (stage = .fragment → ¬Crosses q c p.spec) → Fed stage e ⟨block.id, i⟩ := by
    intro crosses c' p' s' hc' hp' hl' _
    cases hc.symm.trans hc'
    cases hp.symm.trans hp'
    cases hsource.symm.trans hl'
    refine ⟨hbuilt, fun hstage => .inr fun q' hq' => ?_⟩
    cases hq.symm.trans hq'
    exact crosses hstage
  unfold routeIn
  split
  · rename_i hstage
    obtain ⟨e', hroute, ⟨hstays, rfl⟩ | ⟨hcross, e₁, symbol, hcarried, rfl⟩⟩ :=
      exists_route hc hp hsource hq
    · exact ⟨e', orHalt_eq_ok_iff.mpr hroute, .refl, stays fun _ => hstays⟩
    · refine ⟨_, orHalt_eq_ok_iff.mpr hroute,
        .single (.route hstage hT hc hp hsource hq hbuilt hcross hcarried), ?_⟩
      intro c' p' s' hc' hp' hl' _
      rw [get?_modify, if_pos rfl, hcarried.graph, hc] at hc'
      cases hc'
      simp only [enforced, Block.modifyInput, getElem?_modify, hp, if_true] at hp'
      cases hp'
      cases hsource.symm.trans hl'
      exact ⟨hcarried.built ▸ hbuilt, fun _ => .inl rfl⟩
  · rename_i hstage
    exact ⟨e, rfl, .refl, stays fun hf => absurd hf hstage⟩

theorem report_free (hT : T block.id) (hs : Ongoing g l e) (hi : block.inputs[i]? = some socket)
    (hl : socket.link = none) (required : ¬socket.spec.optional = true) : Step l stage T e { e with
      ledger := e.ledger.reportUnconnected ⟨socket.spec.name, block.name, block.className⟩ } := by
  obtain ⟨c, hc, same⟩ := hs.current hb₀ hblock
  have lacks : block.Lacks ⟨socket.spec.name, block.name, block.className⟩ :=
    ⟨i, socket, hi, hl, by simpa using required, rfl⟩
  exact .report _ hT hc (lacks.of_outline same)

variable {ι : Type} {next : ι → BlockId → Emission → Except Halt Emission}
  (sub : ∀ x e, Ongoing g l e → g.Upstream block.id x → Course g l stage T e
    (fun n => next n x e) fun e' => Steps l stage T e e' ∧ x ∈ e'.built)
include sub

/-- Feeding the inputs of a block is a sequence of steps if building what feeds it is, and leaves
each of them attended to. -/
theorem feed_steps (hT : T block.id) {items : List (InputSocket × Nat)}
    (hitems : ∀ a ∈ items, block.inputs[a.2]? = some a.1) (hs : Ongoing g l e) :
    Course g l stage T e (fun n => feed (next n) stage block items e) fun e' =>
      Steps l stage T e e' ∧ ∀ a ∈ items, Attended stage e' block a := by
  induction items generalizing e with
  | nil => exact .ends e (fun _ => rfl) ⟨.refl, fun _ ha => nomatch ha⟩
  | cons a rest ih =>
    obtain ⟨socket, i⟩ := a
    rw [forall_mem_cons] at hitems
    obtain ⟨hi, hrest⟩ := hitems
    -- the first input is attended to after some steps, and stays so while the others are looked at
    have onward : ∀ e₁, Steps l stage T e e₁ → Attended stage e₁ block (socket, i) →
        Course g l stage T e (fun n => feed (next n) stage block rest e₁) fun e' =>
          Steps l stage T e e' ∧ ∀ a ∈ (socket, i) :: rest, Attended stage e' block a := by
      intro e₁ hsteps hseen
      have hs₁ := hsteps.steady hs
      exact (ih hrest hs₁).after hsteps fun e' ⟨hsteps', hall⟩ =>
        ⟨hsteps.trans hsteps', forall_mem_cons.mpr ⟨hseen.steps hs₁ hsteps', hall⟩⟩
    cases hl : socket.link with
    | none =>
      have unread : Fed stage e ⟨block.id, i⟩ := fed_of_unread hb₀ hblock hs hi (by simp [hl])
      by_cases optional : socket.spec.optional = true
      · simp only [feed, hl, optional, if_true]
        refine onward e .refl ⟨unread, fun _ required => ?_⟩
        rw [optional] at required
        cases required
      · have hstep : Step l stage T e _ := report_free hb₀ hblock hT hs hi hl optional
        simp only [feed, hl, optional, false_eq_true, if_false]
        exact onward _ (.single hstep)
          ⟨unread.step hs hstep, fun _ _ => mem_pushNew.mpr (.inr rfl)⟩
    | some source =>
      have linked := upstream_of_link hb₀ hblock hi hl
      have bound : socket.link = none → socket.spec.optional = false →
          ⟨socket.spec.name, block.name, block.className⟩ ∈ e.ledger.unconnected := by
        simp [hl]
      cases looked : isProcessed block stage socket.spec && source.block != block.id with
      | true =>
        simp only [feed_of_looked hl looked]
        refine (sub _ _ hs linked).bind fun e₁ ⟨hsteps₁, hbuilt⟩ => ?_
        obtain ⟨e₂, hroute, hsteps₂, hfed⟩ :=
          fed_of_route hb₀ hblock stage hT (hsteps₁.steady hs) hi hl hbuilt
        simp only [hroute, Bind.bind, Except.bind]
        refine onward e₂ (hsteps₁.trans hsteps₂) ⟨hfed, fun free => ?_⟩
        rw [hl] at free
        cases free
      | false =>
        simp only [feed_of_skipped hl looked]
        refine onward e .refl ⟨fed_of_unread hb₀ hblock hs hi fun _ _ => ?_, bound⟩
        have apart : source.block ≠ block.id := by
          intro hself
          rw [hself] at linked
          exact hs.outset.acyclic _ (.single linked)
        simpa [apart] using looked

/-- Following a teleport is a sequence of steps that ends unless the entry is gone. -/
theorem teleport_steps (hT : T block.id) (hs : Ongoing g l e)
    (gone : ∀ x, x ∉ g.ids → ∀ n, next n x e = .ok e) :
    Course g l stage T e (fun n => teleport (next n) stage block e) fun r =>
      Steps l stage T e r.2 ∧
        ∀ b, r.2.graph.get? block.id = some b → Teleported stage r.2 b r.1 := by
  have current : ∀ {e' b}, Ongoing g l e' → e'.graph.get? block.id = some b →
      b.kind.teleportEntry = block.kind.teleportEntry := by
    intro e' b hs' hb
    obtain ⟨c, hc, same⟩ := hs'.current hb₀ hblock
    cases hb.symm.trans hc
    exact entry_of_outline same
  unfold teleport Teleported
  cases hentry : block.kind.teleportEntry with
  | none =>
    refine .ends ([], e) (fun _ => rfl) ⟨.refl, fun b hb => ?_⟩
    rw [current hs hb, hentry]
  | some entry =>
    have origin : g.origin? block.id = some entry :=
      origin?_eq_some_iff.mpr ⟨b₀, hb₀, (entry_of_outline hblock).symm.trans hentry⟩
    by_cases there : entry ∈ g.ids
    case neg =>
      refine .halts e block.id entry (fun n => ?_) .refl hT origin there
      have missing : e.graph.get? entry = none := by
        rwa [get?_eq_none_iff, ids_of_outlines hs.outlines]
      simp [gone entry there n, teleportSlot, Graph.find, missing, orHalt, Except.mapError,
        Bind.bind, Except.bind]
    refine (sub _ _ hs (.inr ⟨origin, there⟩)).bind fun e₁ reached => ?_
    obtain ⟨hsteps, hbuilt⟩ := reached
    have hs₁ := hsteps.steady hs
    obtain ⟨c, hc⟩ := mem_ids_iff.mp there
    obtain ⟨c', hc', -⟩ := exists_get?_of_outlines hs₁.outlines hc
    obtain ⟨⟨slot, e₂⟩, hslot⟩ := exists_teleportSlot stage hs₁.regular.coherent hc'
    obtain ⟨hname, hentered⟩ := teleportSlot_spec hslot
    have arrived : Steps l stage T e₁ e₂ ∧ entry ∈ e₂.built ∧ Arrived stage e₂ entry slot := by
      cases hentered with
      | free hfree hsymbol hsame =>
        subst hsame
        exact ⟨.refl, hbuilt, .free hfree hsymbol⟩
      | @crossing source producer hsource hp hfrom hcarried =>
        refine ⟨.single (.carry hfrom.1 hcarried), hcarried.built ▸ hbuilt, ?_⟩
        refine @Arrived.crossing _ _ _ _ source producer ?_ ?_ hfrom ?_ ?_
        · rw [hcarried.graph]; exact hsource
        · rw [hcarried.graph]; exact hp
        · rw [hcarried.graph, hcarried.fragment]; exact hcarried.reference_eq
        · rw [hcarried.graph]; exact hcarried.hasVarying
      | reading hsocket hl hp hfrom hsymbol hsame =>
        subst hsame
        exact ⟨.refl, hbuilt, .reading hsocket hl hp hfrom hsymbol⟩
    refine .ends ([slot], e₂) (fun n => ?_) ⟨hsteps.trans arrived.1, fun b hb => ?_⟩
    · rw [orHalt_eq_ok_iff.mpr hslot]
      rfl
    · rw [current (arrived.1.steady hs₁) hb, hentry]
      exact ⟨arrived.2.1, slot, rfl, hname, arrived.2.2⟩

end Feed

/-- The build of a block, given what builds the blocks behind. -/
def buildBy (stage : Stage) (next : BlockId → Emission → Except Halt Emission) (id : BlockId)
    (e : Emission) : Except Halt Emission :=
  match e.graph.get? id with
  | none => .ok e
  | some block =>
    if e.built.contains id then .ok e
    else do
      let e ← feed next stage block block.inputs.zipIdx (e.nameBlock block)
      let (teleported, e) ← teleport next stage block e
      if e.built.contains id then return e
      e.orHalt (e.call stage id teleported)

theorem buildBy_of_missing {next : BlockId → Emission → Except Halt Emission} (hs : Ongoing g l e)
    (gone : id ∉ g.ids) : buildBy stage next id e = .ok e := by
  rw [← ids_of_outlines hs.outlines, ← get?_eq_none_iff] at gone
  simp only [buildBy, gone]

theorem build_eq_iterate (stage : Stage) (steps : Nat) :
    build stage steps = (buildBy stage)^[steps] fun _ e => .ok e := by
  induction steps with
  | zero => rfl
  | succ steps ih =>
    rw [Function.iterate_succ_apply', ← ih]
    rfl

/-- With enough steps left, a build is a sequence of steps at whose end the block is built, whatever
stands beyond the bound. The number of steps falls as the blocks behind get fewer; the last one is
for an entry that is gone. -/
theorem iterate_steps (closed : ∀ x y, T x → g.Upstream x y → T y)
    {steps : Nat} (hT : T id) (hid : id ∈ g.ids) (enough : g.depth id + 1 < steps)
    (hs : Ongoing g l e) : Course g l stage T e (fun beyond => (buildBy stage)^[steps] beyond id e)
      fun e' => Steps l stage T e e' ∧ id ∈ e'.built := by
  induction steps generalizing id e with
  | zero => omega
  | succ steps ih =>
    obtain ⟨b₀, hb₀⟩ := mem_ids_iff.mp hid
    obtain ⟨block, hb, hblock⟩ := exists_get?_of_outlines hs.outlines hb₀
    obtain rfl := id_of_get? hb
    have sub : ∀ x e, Ongoing g l e → g.Upstream block.id x → Course g l stage T e
        (fun beyond => (buildBy stage)^[steps] beyond x e) fun e' =>
          Steps l stage T e e' ∧ x ∈ e'.built := by
      intro x e hs hx
      refine ih (closed _ _ hT hx) (hs.outset.coherent.mem_ids_of_upstream hx) ?_ hs
      have := depth_lt hs.outset.coherent hs.outset.acyclic hx
      omega
    have hname : Step l stage T e (e.nameBlock block) := .name hb
    have hs₀ := hname.steady hs
    simp only [Function.iterate_succ_apply', buildBy, hb]
    split
    · rename_i hbuilt
      exact .ends e (fun _ => rfl) ⟨.refl, by simpa using hbuilt⟩
    have feeding := feed_steps hb₀ hblock sub hT
      (fun a ha => mem_zipIdx_iff_getElem?.mp ha) hs₀
    refine (feeding.after (.single hname) fun _ h => h).bind fun e₁ ⟨hsteps₁, hattended⟩ => ?_
    have hs₁ := hsteps₁.steady hs₀
    have teleporting := teleport_steps hb₀ hblock sub hT hs₁ fun x gone beyond => by
      obtain ⟨steps, rfl⟩ : ∃ n, steps = n + 1 := ⟨steps - 1, by omega⟩
      rw [Function.iterate_succ_apply', buildBy_of_missing hs₁ gone]
    refine (teleporting.after (.head hname hsteps₁) fun _ h => h).bind
      fun (slots, e₂) ⟨hsteps₂, hslots⟩ => ?_
    have hs₂ := hsteps₂.steady hs₁
    have path : Steps l stage T e e₂ := .head hname (hsteps₁.trans hsteps₂)
    dsimp only
    split
    · rename_i hbuilt
      exact .ends e₂ (fun _ => rfl) ⟨path, by simpa using hbuilt⟩
    · rename_i hbuilt
      have attended : ∀ i p, block.inputs[i]? = some p → Attended stage e₂ block (p, i) :=
        fun i p hp => (hattended (p, i) (mem_zipIdx_iff_getElem?.mpr hp)).steps hs₁ hsteps₂
      obtain ⟨c, hc, same⟩ := hs₂.current hb₀ hblock
      have fed : ∀ i, Fed stage e₂ ⟨block.id, i⟩ := by
        intro i c' p s hc' hp
        cases hc.symm.trans hc'
        obtain ⟨p₀, hp₀, -⟩ := input_of_outline same.symm hp
        exact (attended i p₀ hp₀).1 c p s hc hp
      have reported : Reported e₂ block.id := by
        intro c' u hc' hlacks
        cases hc.symm.trans hc'
        obtain ⟨i, p, hp, free, required, rfl⟩ := hlacks.of_outline same.symm
        exact (attended i p hp).2 free required
      have labelled : Labelled l e₂ block.id :=
        (labelled_nameBlock hb).steps hs₀ (hsteps₁.trans hsteps₂)
      obtain ⟨e', hcall⟩ := exists_call stage hs₂.regular.coherent hc slots
      obtain ⟨b, b', made, hcalled⟩ := hs₂.called hcall
      refine .ends e' (fun _ => orHalt_eq_ok_iff.mpr hcall)
        ⟨path.tail (.call hT (by simpa using hbuilt) fed labelled hslots hcall reported), ?_⟩
      rw [hcalled.built]
      exact mem_cons_self

theorem build_steps (closed : ∀ x y, T x → g.Upstream x y → T y)
    {steps : Nat} (hT : T id) (hid : id ∈ g.ids) (enough : g.depth id + 1 < steps)
    (hs : Ongoing g l e) (h : build stage steps id e = .ok e') :
    Steps l stage T e e' ∧ id ∈ e'.built :=
  (iterate_steps closed hT hid enough hs).of_ok
    ((congrFun₂ (build_eq_iterate stage steps) id e).symm.trans h)

/-- The blocks of one stage, with something beyond the bound. -/
def buildAllBy (stage : Stage) (beyond : BlockId → Emission → Except Halt Emission)
    (nodes : List BlockId) (e : Emission) : Except Halt Emission :=
  nodes.foldlM (fun e id => (buildBy stage)^[e.graph.blocks.length + 1] beyond id e) e

/-- One stage of an emission is a sequence of steps at whose end its nodes are built. -/
theorem buildAllBy_steps (stage : Stage) (closed : ∀ x y, T x → g.Upstream x y → T y)
    (hnodes : ∀ n ∈ nodes, n ∈ g.ids → T n) (hs : Ongoing g l e) :
    Course g l stage T e (fun beyond => e.buildAllBy stage beyond nodes) fun e' =>
      Steps l stage T e e' ∧ ∀ n ∈ nodes, n ∈ g.ids → n ∈ e'.built := by
  induction nodes generalizing e with
  | nil => exact .ends e (fun _ => rfl) ⟨.refl, fun _ hn => nomatch hn⟩
  | cons n rest ih =>
    rw [forall_mem_cons] at hnodes
    have first : Course g l stage T e
        (fun beyond => (buildBy stage)^[e.graph.blocks.length + 1] beyond n e) fun e₁ =>
          Steps l stage T e e₁ ∧ (n ∈ g.ids → n ∈ e₁.built) := by
      by_cases hn : n ∈ g.ids
      · exact (iterate_steps closed (hnodes.1 hn) hn (hs.enough hn) hs).after .refl
          fun e₁ ⟨steps, built⟩ => ⟨steps, fun _ => built⟩
      · -- a block that is not there takes one step
        refine .ends e (fun _ => ?_) ⟨.refl, fun hid => absurd hid hn⟩
        rw [Function.iterate_succ_apply', buildBy_of_missing hs hn]
    simp only [buildAllBy, foldlM_cons]
    refine first.bind fun e₁ ⟨steps₁, built₁⟩ => ?_
    have hs₁ := steps₁.steady hs
    exact (ih hnodes.2 hs₁).after steps₁ fun e' ⟨steps₂, built₂⟩ => ⟨steps₁.trans steps₂,
      forall_mem_cons.mpr ⟨fun hid => steps₂.built_subset hs₁ (built₁ hid), built₂⟩⟩

theorem buildAll_eq (stage : Stage) (nodes : List BlockId) (e : Emission) :
    e.buildAll stage nodes = e.buildAllBy stage (fun _ e => .ok e) nodes := by
  unfold buildAll buildAllBy
  simp only [build_eq_iterate]

theorem buildAll_steps (closed : ∀ x y, T x → g.Upstream x y → T y)
    (hnodes : ∀ n ∈ nodes, n ∈ g.ids → T n) (hs : Ongoing g l e)
    (h : e.buildAll stage nodes = .ok e') :
    Steps l stage T e e' ∧ ∀ n ∈ nodes, n ∈ g.ids → n ∈ e'.built := by
  rw [buildAll_eq] at h
  exact (buildAllBy_steps stage closed hnodes hs).of_ok h

theorem buildAll_steady (hs : Ongoing g l e) (h : e.buildAll stage nodes = .ok e') :
    Ongoing g l e' :=
  (buildAll_steps (T := fun _ => True) (fun _ _ _ _ => trivial) (fun _ _ _ => trivial) hs
    h).1.steady hs

end Emission

end ShaderGraph
