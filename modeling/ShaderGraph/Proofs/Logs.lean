import ShaderGraph.Proofs.Completing
import ShaderGraph.Proofs.Lines
import ShaderGraph.Proofs.Saving

/-!
# The log of the vertex stage

Varyings are filled in the vertex stage, by the fog and by what the fragment stage carries over. A
`Log` replays the code of the stage and counts: every varying has one operation that fills it,
outside all regions, and no other operation touches its reference.

`Step.adds` says what a step can do to this code; `Log.step` and `run_log` follow from it.
-/

namespace ShaderGraph

variable {name : String}

open List ShaderGraph.Graph Kind CodeBuffer String

open Emission (varyingName)

/-! ## 1. Filling a varying once -/

/-- The operation gives a value to the reference, or writes a text that begins with it. -/
def CodeOp.Assigns (ref : String) : CodeOp → Prop
  | .push text => ref.toList <+: text.toList
  | .assign target _ => target = ref
  | _ => False

/-- The names of varyings: the distance of the fog, and what a symbol is carried as. -/
def IsVaryingName (name : String) : Prop :=
  name = FogBlock.distanceVarying ∨ ∃ symbol, name = varyingName symbol

theorem IsVaryingName.exists_lead (h : IsVaryingName name) (l : Language) :
    ∃ lead ∈ varyingLeads, lead <+: (l.varyingRef .vertex name).toList := by
  have begins : ∃ lead ∈ [['v', '_'], ['v', 'F']], lead <+: name.toList := by
    rcases h with rfl | ⟨symbol, rfl⟩
    · exact ⟨['v', 'F'], by simp, by decide⟩
    · refine ⟨['v', '_'], by simp, ?_⟩
      rw [varyingName, toList_append]
      exact prefix_append _ _
  obtain ⟨lead, hlead, begins⟩ := begins
  cases l with
  | glsl => exact ⟨lead, mem_of_mem_take (i := 2) hlead, begins⟩
  | wgsl =>
    have v : ['v'] <+: lead := by
      rcases mem_cons.mp hlead with rfl | hlead
      · decide
      · exact mem_singleton.mp hlead ▸ by decide
    refine ⟨"vertexOutputs.".toList ++ ['v'], by decide, ?_⟩
    change _ <+: ("vertexOutputs." ++ name).toList
    rw [toList_append]
    exact (prefix_append_right_inj _).mpr (v.trans begins)

theorem CodeOp.Spares.not_assigns {op : CodeOp} (h : op.Spares) (hname : IsVaryingName name)
    (l : Language) : ¬op.Assigns (l.varyingRef .vertex name) := by
  obtain ⟨lead, hlead, begins⟩ := hname.exists_lead l
  intro assigns
  cases op with
  | push text => exact h lead hlead (begins.trans assigns)
  | assign target value => exact h lead hlead (assigns ▸ begins)
  | _ => exact assigns

theorem Language.varyingRef_inj {l : Language} {stage : Stage} {a b : String}
    (h : l.varyingRef stage a = l.varyingRef stage b) : a = b := by
  have cancel : ∀ lead : String, lead ++ a = lead ++ b → a = b := by
    intro lead h
    have same := congrArg String.toList h
    rw [toList_append, toList_append, append_cancel_left_eq] at same
    exact toList_inj.mp same
  cases l with
  | glsl => exact h
  | wgsl => cases stage <;> exact cancel _ h

/-- One operation of a log gives the reference its value, outside all regions, and no other one
assigns it. -/
def FilledOnce (ops : List CodeOp) (ref value : String) : Prop :=
  ∃ before after code, ops = before ++ .assign ref value :: after ∧
    ({} : CodeBuffer).applyAll before = .ok code ∧ code.regions = [] ∧
    ∀ op ∈ before ++ after, ¬op.Assigns ref

namespace FilledOnce

variable {ops more : List CodeOp} {ref value other : String}

theorem append (h : FilledOnce ops ref value) (spared : ∀ op ∈ more, ¬op.Assigns ref) :
    FilledOnce (ops ++ more) ref value := by
  obtain ⟨before, after, code, rfl, replay, level, alone⟩ := h
  refine ⟨before, after ++ more, code, by simp, replay, level, fun op hop => ?_⟩
  rw [← List.append_assoc, List.mem_append] at hop
  exact hop.elim (alone op) (spared op)

theorem last {code : CodeBuffer} (replay : ({} : CodeBuffer).applyAll ops = .ok code)
    (level : code.regions = []) (fresh : ∀ op ∈ ops, ¬op.Assigns ref) :
    FilledOnce (ops ++ [.assign ref value]) ref value :=
  ⟨ops, [], code, rfl, replay, level, by simpa using fresh⟩

/-- A reference that is filled once has one value. -/
theorem unique (h : FilledOnce ops ref value) (h' : FilledOnce ops ref other) : value = other := by
  obtain ⟨before, after, -, rfl, -, -, alone⟩ := h
  obtain ⟨before', after', -, same, -, -, -⟩ := h'
  have there : CodeOp.assign ref other ∈ before ++ .assign ref value :: after :=
    same ▸ mem_append_right _ mem_cons_self
  rw [mem_append, mem_cons] at there
  rcases there with hop | hop | hop
  · exact absurd rfl (alone _ (mem_append_left _ hop))
  · exact (CodeOp.assign.inj hop).2.symm
  · exact absurd rfl (alone _ (mem_append_right _ hop))

end FilledOnce

/-! ## 2. What a step adds -/

/-- What a call read at the input of a name. -/
def BuildCall.symbol (q : BuildCall) (name : String) : String :=
  (q.inputs.find? fun slot => slot.name == name).elim "" Slot.symbol

/-- What a fog takes for the distance. -/
def BuildCall.distance (q : BuildCall) : String :=
  FogBlock.distanceValue (q.symbol "view") (q.symbol "worldPosition")

/-- Whether a call is one of a fog for the vertex stage. -/
def Graph.isFogCall (g : Graph) (q : BuildCall) : Bool :=
  q.stage == .vertex && (g.get? q.block).any fun b => b.kind.isFog

namespace Emission

variable {e e' : Emission} {stage : Stage} {id : BlockId} {g : Graph} {l : Language}
  {T : BlockId → Prop} {teleported : List Slot}

/-- No line break in the names of blocks, in the symbols that were read and left, and in the names
of varyings. -/
structure Legible (e : Emission) : Prop where
  names : ∀ x b, e.graph.get? x = some b → Unbroken b.name
  calls : ∀ q ∈ e.calls, ∀ slot ∈ q.inputs ++ q.outputs, Unbroken slot.symbol
  varyings : ∀ v ∈ e.ledger.varyings, Unbroken v.name

theorem Legible.back (hs : Ongoing g l e) (h : Step l stage T e e')
    (legible : e'.Legible) : e.Legible where
  names x b hb := by
    obtain ⟨b', hb', advances, -⟩ := h.advances hs hb
    have same : b'.name = b.name := congrArg Block.Outline.name advances.outline
    exact same ▸ legible.names x b' hb'
  calls q hq := legible.calls q (h.calls_subset hs hq)
  varyings v hv := legible.varyings v ((h.gains hs).varyings hv)

/-- What a step adds to the code of the vertex stage and to the varyings. -/
inductive Adds (g : Graph) (l : Language) (e e' : Emission) : Prop
  /-- Code that fills no varying. A fog that writes nothing has found the distance declared. -/
  | code (ops : List CodeOp) : e.vertex.code.applyAll ops = .ok e'.vertex.code →
      (∀ op ∈ ops, op.Neat e'.Legible) → e'.ledger.varyings = e.ledger.varyings →
      (∀ q ∈ e'.calls, g.isFogCall q = true → q ∈ e.calls ∨
        e.ledger.hasVarying FogBlock.distanceVarying = true) → Adds g l e e'
  /-- A varying and the line that fills it, with nothing but comments before. -/
  | fill (comments : List CodeOp) (code : CodeBuffer) (v : VaryingDecl) (value : String) :
      e.vertex.code.applyAll comments = .ok code → (∀ op ∈ comments, op.Neat e'.Legible) →
      code.nesting = e.vertex.code.nesting →
      e'.vertex.code = code.pushText (assignment (l.varyingRef .vertex v.name) value) →
      e.ledger.hasVarying v.name = false → e'.ledger.varyings = e.ledger.varyings ++ [v] →
      (e'.Legible → Unbroken value) →
      (e'.calls = e.calls ∧ v.name = varyingName value ∨
        v.name = FogBlock.distanceVarying ∧ ∃ q, e'.calls = e.calls ++ [q] ∧
          g.isFogCall q = true ∧ value = q.distance) → Adds g l e e'

theorem Adds.of_same (vertex : e'.vertex.code = e.vertex.code)
    (varyings : e'.ledger.varyings = e.ledger.varyings) (calls : e'.calls = e.calls) :
    Adds g l e e' :=
  .code [] (vertex ▸ rfl) nofun varyings fun _ hq _ => .inl (calls ▸ hq)

theorem record_nameOutputs (ledger : Ledger) (ps : List OutputSocket) :
    (nameOutputs ledger ps).2.record = ledger.record := by
  induction ps generalizing ledger with
  | nil => rfl
  | cons p rest ih =>
    unfold nameOutputs
    dsimp only
    split
    · exact ih _
    · exact ih _

theorem Carried.adds {e₁ : Emission} {source : SocketRef} {reference : String}
    (h : Carried source e e₁ reference) (hl : e.vertex.language = l)
    (vertex : e'.vertex = e₁.vertex) (ledger : e'.ledger = e₁.ledger)
    (calls : e'.calls = e₁.calls) : Adds g l e e' := by
  cases known : e.ledger.hasVarying (varyingName (e.graph.symbolAt source)) with
  | true =>
    obtain ⟨sameLedger, sameVertex⟩ := h.declared known
    exact .of_same (by rw [vertex, sameVertex]) (by rw [ledger, sameLedger])
      (calls.trans h.calls)
  | false =>
    rcases h.rest with ⟨declared, -⟩ | ⟨type, added, pushed⟩
    · rw [known] at declared
      cases declared
    · have varyings : e'.ledger.varyings = e.ledger.varyings ++
          [{ name := varyingName (e.graph.symbolAt source), type }] := by
        rw [ledger, added]
        exact Ledger.varyings_addVarying known
      refine .fill [] e.vertex.code _ (e.graph.symbolAt source) rfl nofun rfl ?_ known varyings ?_
        (.inl ⟨calls.trans h.calls, rfl⟩)
      · rw [vertex, pushed, hl]
        rfl
      · intro legible
        have unbroken := legible.varyings _ (varyings ▸ mem_append_right _ mem_cons_self)
        exact (unbroken_append.mp unbroken).2

/-- The code before a build: a comment may have been put in front. -/
theorem applyAll_draftFor (e : Emission) (b : Block) (stage : Stage) {clean : Prop}
    (named : clean → Unbroken b.name) :
    ∃ ops, (e.draft stage).code.applyAll ops = .ok (e.draftFor b stage).code ∧
      ∀ op ∈ ops, op.Neat clean := by
  have comment : ∀ d : StageDraft, ∃ ops, d.code.applyAll ops = .ok (d.comment b.name).code ∧
      ∀ op ∈ ops, op.Neat clean := by
    intro d
    unfold StageDraft.comment
    split
    · refine ⟨[.push ("// " ++ b.name ++ "\n")], CodeBuffer.applyAll_singleton _ _, ?_⟩
      intro op hop
      obtain rfl := List.mem_singleton.mp hop
      refine ⟨?_, fun hc => ⟨"// " ++ b.name, rfl, by simp +decide [named hc]⟩⟩
      rw [String.append_assoc]
      exact .append rfl rfl _
    · exact ⟨[], rfl, nofun⟩
  cases stage <;> unfold draftFor draft <;> dsimp only <;> split
  · exact ⟨[], rfl, nofun⟩
  · exact comment _
  · exact ⟨[], rfl, nofun⟩
  · exact comment _

/-- The ledger behind a call is the one that the build leaves, with its fault noted. -/
theorem ledger_call {slots : List Slot} {b : Block} {l : Ledger}
    (h : e.call stage id teleported = .ok e') (hb : e.graph.get? id = some b)
    (hslots : inputSlots e.graph b b.inputs.zipIdx e.ledger = .ok (slots, l)) :
    let s := e.site stage b (slots ++ teleported) l
    ∃ message,
      e'.ledger = noteFault (Emit.after Kind.build s).ledger message (Kind.build.run.run s).1 := by
  obtain ⟨b', hb', h⟩ := bind_eq_ok_iff.mp h
  cases hb.symm.trans (find_eq_ok_iff.mp hb')
  obtain ⟨⟨slots', l'⟩, hslots', h⟩ := bind_eq_ok_iff.mp h
  obtain ⟨rfl, rfl⟩ := Prod.mk.inj (Except.ok.inj (hslots.symm.trans hslots'))
  obtain rfl := id_of_get? hb
  cases h
  refine ⟨fun fault => b.name ++ "[" ++ b.className ++ "]: " ++ fault.message, ?_⟩
  cases stage <;> rfl

/-- A call of a block, with the place where its build starts and the place that it leaves. -/
structure Placed (stage : Stage) (id : BlockId) (e e' : Emission) (b : Block) (s t : Site Kind) :
    Prop where
  before : e.graph.get? id = some b
  build : t = Emit.after Kind.build s
  kind : s.kind = b.kind
  block : s.block = id
  fitted : b.Fitted
  inputs : ∀ (i : Nat) (p : InputSocket), b.inputs[i]? = some p →
    ∃ slot : Slot, s.inputs[i]? = some slot ∧ slot.name = p.spec.name ∧
      slot.connected = p.isConnected ∧ slot.symbol = readSymbol e.graph p
  outputs : s.outputs = outputSlots e.graph b
  draft : s.draft = e.draftFor b stage
  record : s.ledger.record = (noteResult b stage e.ledger).record
  roster : s.ledger.roster = e.ledger.roster
  grows : e.ledger.Grows s.ledger
  graph_eq : e'.graph = e.graph.modify id (close stage t.kind t.outputs)
  calls_eq : e'.calls = e.calls ++ [⟨id, stage, s.inputs, t.outputs⟩]
  draft_eq : e'.draft stage = t.draft
  record_eq : e'.ledger.record = t.ledger.record
  roster_eq : e'.ledger.roster = t.ledger.roster
  grows_eq : t.ledger.Grows e'.ledger
  ended : e'.ledger.customErrors = [] → Kind.build.run.run s = (.ok (), t)

theorem placed_call (hg : e.graph.Regular) (h : e.call stage id teleported = .ok e') :
    ∃ b s t, Placed stage id e e' b s t := by
  obtain ⟨b, slots, l, hb, hslots, hgraph, hledger, hroster, -, hcalls, hdraft, -, -⟩ :=
    call_eq_ok h
  obtain ⟨message, noted⟩ := ledger_call h hb hslots
  refine ⟨b, e.site stage b (slots ++ teleported) l,
    Emit.after Kind.build (e.site stage b (slots ++ teleported) l), ?_⟩
  constructor
  case before => exact hb
  case build => rfl
  case kind => rfl
  case block => exact Graph.id_of_get? hb
  case fitted => exact hg.fitted id b hb
  case inputs =>
    intro i p hp
    obtain ⟨slot, hslot, known⟩ := inputSlots_getElem? hslots hp
    refine ⟨slot, ?_, known⟩
    exact (List.getElem?_append_left (List.getElem?_eq_some_iff.mp hslot).1).trans hslot
  case outputs => rfl
  case draft => rfl
  case record =>
    change (noteResult b stage l).record = _
    rw [(inputSlots_spec hslots).ledger]
    unfold noteResult
    split
    · cases stage <;> rfl
    · rfl
  case roster =>
    change (noteResult b stage l).roster = _
    rw [(inputSlots_spec hslots).ledger]
    unfold noteResult
    split
    · cases stage <;> rfl
    · rfl
  case grows => exact (inputSlots_spec hslots).grows.trans (grows_noteResult b stage l)
  case graph_eq => exact hgraph
  case calls_eq => exact hcalls
  case draft_eq => exact hdraft
  case record_eq =>
    rw [noted]
    cases (Kind.build.run.run (e.site stage b (slots ++ teleported) l)).1 <;> rfl
  case roster_eq => exact hroster
  case grows_eq => exact hledger
  case ended =>
    intro clean
    refine Prod.ext ?_ rfl
    rw [noted] at clean
    cases result : (Kind.build.run.run (e.site stage b (slots ++ teleported) l)).1 with
    | ok _ => rfl
    | error fault =>
      rw [result] at clean
      exact absurd (clean ▸ mem_pushNew.mpr (.inr rfl)) (List.not_mem_nil (a := message fault))

namespace Placed

variable {b : Block} {s t : Site Kind}

section

variable (h : Placed stage id e e' b s t)
include h

theorem input {i : Nat} {spec : SocketSpec} (hspec : b.kind.inputs[i]? = some spec) :
    ∃ (p : InputSocket) (slot : Slot), b.inputs[i]? = some p ∧ p.spec = spec ∧
      s.inputs.find? (fun slot => slot.name == spec.name) = some slot ∧
      slot.connected = p.isConnected ∧ slot.symbol = readSymbol e.graph p := by
  have distinct := h.fitted.nodup_inputs
  rw [← h.fitted.inputs, List.getElem?_map] at hspec
  obtain ⟨p, hp, rfl⟩ := Option.map_eq_some_iff.mp hspec
  obtain ⟨slot, hslot, name, known⟩ := h.inputs i p hp
  obtain ⟨hi, atPlace⟩ := List.getElem?_eq_some_iff.mp hslot
  refine ⟨p, slot, hp, rfl, List.find?_eq_some_iff_getElem.mpr ⟨beq_iff_eq.mpr name, i, hi, atPlace,
    fun j hj => ?_⟩, known⟩
  -- an earlier slot is that of another input
  have inside : j < b.inputs.length := hj.trans (List.getElem?_eq_some_iff.mp hp).1
  obtain ⟨other, hother, otherName, -⟩ := h.inputs j _ (List.getElem?_eq_getElem inside)
  rw [(List.getElem?_eq_some_iff.mp hother).2, otherName]
  simp only [Bool.not_eq_eq_eq_not, Bool.not_true, beq_eq_false_iff_ne]
  intro same
  refine absurd ((List.getElem?_inj (by simpa using inside) distinct).mp ?_) hj.ne
  rw [List.getElem?_map, List.getElem?_map, hp, List.getElem?_eq_getElem inside, Option.map_some,
    Option.map_some, same]

theorem varyings : s.ledger.varyings = e.ledger.varyings := by
  have same := congrArg Prod.fst h.record
  refine same.trans ?_
  unfold noteResult
  split
  · cases stage <;> rfl
  · rfl

theorem varyings_eq : e'.ledger.varyings = t.ledger.varyings := congrArg Prod.fst h.record_eq

theorem hasVarying (name : String) : s.ledger.hasVarying name = e.ledger.hasVarying name := by
  rw [Ledger.hasVarying, h.varyings, Ledger.hasVarying]

theorem outputs_eq (hin : b.kind.isInput = false) : t.outputs = s.outputs := by
  rw [h.build]
  exact (grows_build s).outputs (h.kind ▸ hin)

theorem legible (hin : b.kind.isInput = false) (clean : e'.Legible) : s.Legible := by
  intro slot hslot
  refine clean.calls ⟨id, stage, s.inputs, t.outputs⟩ ?_ slot ((h.outputs_eq hin).symm ▸ hslot)
  rw [h.calls_eq]
  exact mem_append_right _ mem_cons_self

theorem isFogCall (hs : Ongoing g l e) :
    g.isFogCall ⟨id, stage, s.inputs, t.outputs⟩ = (stage == .vertex && b.kind.isFog) := by
  obtain ⟨b₀, hb₀, outline⟩ := exists_get?_of_outlines hs.outlines.symm h.before
  rw [Graph.isFogCall, hb₀, Option.any_some, Block.isFog_of_outline outline]

theorem unbroken_name (clean : e'.Legible) : Unbroken b.name := by
  refine clean.names id (close stage t.kind t.outputs b) ?_
  rw [h.graph_eq, get?_modify, if_pos rfl, h.before]
  rfl

/-- Every call but that of a fog for the vertex stage leaves the varyings alone. -/
theorem adds_code (hs : Ongoing g l e) (stages : ∀ s, (e.draft s).stage = s)
    (vertex : stage = .fragment → e'.vertex.code = e.vertex.code)
    (hfog : (stage == .vertex && b.kind.isFog) = false) : Adds g l e e' := by
  have fragment : ∀ f, s.kind = .fog f → s.draft.stage = .fragment := by
    intro f hf
    rw [h.draft, (e.grows_draftFor b stage).stage, stages]
    cases stage with
    | fragment => rfl
    | vertex =>
      rw [← h.kind, hf] at hfog
      cases hfog
  obtain ⟨⟨ops, replay, neat⟩, record⟩ :=
    build_wrote (fun hin => h.legible (h.kind ▸ hin)) fragment
  rw [← h.build] at replay record
  have varyings : e'.ledger.varyings = e.ledger.varyings :=
    h.varyings_eq.trans ((congrArg Prod.fst record).trans h.varyings)
  have old : ∀ q ∈ e'.calls, g.isFogCall q = true → q ∈ e.calls ∨
      e.ledger.hasVarying FogBlock.distanceVarying = true := by
    intro q hq hfq
    rw [h.calls_eq, mem_append, mem_singleton] at hq
    rcases hq with hq | rfl
    · exact .inl hq
    · rw [h.isFogCall hs, hfog] at hfq
      cases hfq
  cases stage with
  | fragment => exact .code [] (congrArg Except.ok (vertex rfl).symm) nofun varyings old
  | vertex =>
    obtain ⟨comments, commented, neat'⟩ := e.applyAll_draftFor b .vertex h.unbroken_name
    rw [h.draft] at replay
    refine .code (comments ++ ops) ?_ ?_ varyings old
    · rw [show e'.vertex = t.draft from h.draft_eq]
      exact applyAll_append commented replay
    · exact fun op hop => (mem_append.mp hop).elim (neat' op) (neat op)

end

/-- The call of a fog for the vertex stage fills the distance, unless it is filled. -/
theorem adds_fog (h : Placed .vertex id e e' b s t) (hs : Ongoing g l e)
    (stages : ∀ s, (e.draft s).stage = s) (hfog : b.kind.isFog = true) : Adds g l e e' := by
  obtain ⟨f, hf⟩ : ∃ f, b.kind = .fog f := by
    cases hk : b.kind with
    | fog f => exact ⟨f, rfl⟩
    | _ => rw [hk] at hfog; cases hfog
  have drawn : s.draft.stage = .vertex := by
    rw [h.draft, (e.grows_draftFor b .vertex).stage, stages]
  obtain ⟨-, position, -, -, hp, -⟩ := h.input (i := 0) (by rw [hf]; rfl)
  obtain ⟨-, view, -, -, hv, -⟩ := h.input (i := 1) (by rw [hf]; rfl)
  obtain ⟨comments, commented, neat⟩ := e.applyAll_draftFor b .vertex h.unbroken_name
  rw [← h.draft] at commented
  have after : e'.vertex = t.draft := h.draft_eq
  have isFog := (h.isFogCall hs).trans hfog
  rcases build_fog (h.kind.trans hf) drawn hp hv with
    ⟨declared, draft, ledger⟩ | ⟨free, draft, ledger⟩
  · rw [← h.build] at draft ledger
    refine .code comments ?_ neat ?_ fun _ _ _ => .inr (h.hasVarying _ ▸ declared)
    · rw [after, draft]
      exact commented
    · rw [h.varyings_eq, ledger, h.varyings]
  · rw [← h.build] at draft ledger
    refine .fill comments s.draft.code { name := FogBlock.distanceVarying, type := .vector3 }
      (FogBlock.distanceValue view.symbol position.symbol) commented neat ?_ ?_
      (h.hasVarying _ ▸ free) ?_ ?_ (.inr ⟨rfl, _, h.calls_eq, isFog, ?_⟩)
    · rw [h.draft]
      exact nesting_draftFor e b .vertex
    · rw [after, draft, h.draft, (e.grows_draftFor b .vertex).language, hs.language .vertex]
      rfl
    · rw [h.varyings_eq, ledger, ← h.varyings]
      exact Ledger.varyings_addVarying free
    · intro clean
      have seen := h.legible (by rw [hf]; rfl) clean
      have read : ∀ {slot name}, s.inputs.find? (fun slot => slot.name == name) = some slot →
          Unbroken slot.symbol := fun found =>
        seen _ (mem_append_left _ (mem_of_find?_eq_some found))
      simp +decide [FogBlock.distanceValue, read hp, read hv]
    · have read : ∀ {slot name}, s.inputs.find? (fun slot => slot.name == name) = some slot →
          (⟨id, .vertex, s.inputs, t.outputs⟩ : BuildCall).symbol name = slot.symbol := by
        intro slot name found
        rw [BuildCall.symbol, found]
        rfl
      exact congrArg₂ FogBlock.distanceValue (read hv).symm (read hp).symm

end Placed

/-- What a step can do to the code of the vertex stage. -/
theorem Step.adds (hs : Ongoing g l e) (stages : ∀ s, (e.draft s).stage = s)
    (h : Step l stage T e e') : Adds g l e e' := by
  cases h with
  | report u => exact .of_same rfl rfl rfl
  | name hb =>
    rcases nameBlock_eq hb with ⟨-, same⟩ | ⟨-, changed⟩
    · rw [same]
      exact .of_same rfl rfl rfl
    · rw [changed]
      exact .of_same rfl (congrArg Prod.fst (record_nameOutputs e.ledger _)) rfl
  | route hstage hT hconsumer hi hl hp hbuilt hcross hcarried =>
    exact hcarried.adds (hs.language .vertex) rfl rfl rfl
  | carry hstage hcarried => exact hcarried.adds (hs.language .vertex) rfl rfl rfl
  | call hT hid hfed hlabel htele hcall =>
    obtain ⟨b, s, t, placed⟩ := placed_call hs.regular hcall
    obtain ⟨_, _, _, called⟩ := hs.called hcall
    cases hfog : (stage == .vertex && b.kind.isFog) with
    | true =>
      rw [Bool.and_eq_true, beq_iff_eq] at hfog
      obtain ⟨rfl, hfog⟩ := hfog
      exact placed.adds_fog hs stages hfog
    | false =>
      refine placed.adds_code hs stages (fun hstage => ?_) hfog
      rcases called.vertex hstage with same | ⟨decl, changed⟩
      · rw [same]
      · rw [changed]
        rfl

/-! ## 3. The log -/

/-- Operations that write the code of the vertex stage, and what they do for the varyings. -/
structure Log (g : Graph) (l : Language) (ops : List CodeOp) (e : Emission) : Prop where
  stages : ∀ s, (e.draft s).stage = s
  level : e.vertex.code.regions = []
  replay : ({} : CodeBuffer).applyAll ops = .ok e.vertex.code
  whole : e.Legible → ∀ op ∈ ops, op.IsWhole
  distinct : (e.ledger.varyings.map VaryingDecl.name).Nodup
  filled : ∀ v ∈ e.ledger.varyings, ∃ value,
    (v.name = varyingName value ∨ v.name = FogBlock.distanceVarying) ∧
      FilledOnce ops (l.varyingRef .vertex v.name) value
  /-- What is not declared is not touched. -/
  free : ∀ name, IsVaryingName name → e.ledger.hasVarying name = false →
    ∀ op ∈ ops, ¬op.Assigns (l.varyingRef .vertex name)
  /-- The distance is filled by the first fog that is called, -/
  distance : ∀ q, e.calls.find? g.isFogCall = some q →
    e.ledger.hasVarying FogBlock.distanceVarying = true ∧
      FilledOnce ops (l.varyingRef .vertex FogBlock.distanceVarying) q.distance
  /-- and by nothing else. -/
  noFog : e.calls.find? g.isFogCall = none →
    e.ledger.hasVarying FogBlock.distanceVarying = false

theorem Step.calls_prefix (hs : Ongoing g l e) (h : Step l stage T e e') :
    e.calls <+: e'.calls := by
  rcases h.quiet_or_calling hs with quiet | ⟨_, _, _, _, _, calling⟩
  · rw [quiet.calls]
  · rw [calling.calls]
    exact prefix_append _ _

namespace Log

variable {ops : List CodeOp}

theorem start (hcalls : e.calls = []) (hvaryings : e.ledger.varyings = [])
    (stages : ∀ s, (e.draft s).stage = s) (hcode : e.vertex.code = {}) : Log g l [] e where
  stages := stages
  level := by rw [hcode]
  replay := by rw [hcode]; rfl
  whole _ := nofun
  distinct := by rw [hvaryings]; exact nodup_nil
  filled := by rw [hvaryings]; nofun
  free _ _ _ := nofun
  distance q hq := by rw [hcalls] at hq; cases hq
  noFog _ := by rw [Ledger.hasVarying, hvaryings]; rfl

variable (hs : Ongoing g l e) (hstep : Step l stage T e e') (h : Log g l ops e)
include hs hstep h

theorem code {more : List CodeOp} (replay : e.vertex.code.applyAll more = .ok e'.vertex.code)
    (neat : ∀ op ∈ more, op.Neat e'.Legible) (varyings : e'.ledger.varyings = e.ledger.varyings)
    (fogs : ∀ q ∈ e'.calls, g.isFogCall q = true → q ∈ e.calls ∨
      e.ledger.hasVarying FogBlock.distanceVarying = true) : Log g l (ops ++ more) e' := by
  have spared : ∀ {name}, IsVaryingName name →
      ∀ op ∈ more, ¬op.Assigns (l.varyingRef .vertex name) :=
    fun hname op hop => (neat op hop).1.not_assigns hname l
  have known : ∀ name, e'.ledger.hasVarying name = e.ledger.hasVarying name := by
    intro name
    rw [Ledger.hasVarying, varyings, Ledger.hasVarying]
  obtain ⟨later, hlater⟩ := hstep.calls_prefix hs
  constructor
  case stages => exact fun s => (hstep.draft hs s).stage.trans (h.stages s)
  case level =>
    have same := hstep.nesting hs .vertex
    rw [← nesting_eq_nil_iff]
    exact same.trans (nesting_eq_nil_iff.mpr h.level)
  case replay => exact applyAll_append h.replay replay
  case whole =>
    intro clean op hop
    rcases mem_append.mp hop with hop | hop
    · exact h.whole (clean.back hs hstep) op hop
    · exact (neat op hop).2 clean
  case distinct => rw [varyings]; exact h.distinct
  case filled =>
    intro v hv
    obtain ⟨value, hname, filled⟩ := h.filled v (varyings ▸ hv)
    exact ⟨value, hname, filled.append (spared (hname.symm.imp_right fun same => ⟨_, same⟩))⟩
  case free =>
    intro name hname hfree op hop
    rcases mem_append.mp hop with hop | hop
    · exact h.free name hname (known name ▸ hfree) op hop
    · exact spared hname op hop
  case distance =>
    intro q hq
    cases found : e.calls.find? g.isFogCall with
    | some first =>
      rw [← hlater, find?_append, found, Option.some_or] at hq
      obtain rfl := Option.some.inj hq
      obtain ⟨listed, filled⟩ := h.distance first found
      exact ⟨known _ ▸ listed, filled.append (spared (.inl rfl))⟩
    | none =>
      have fog := find?_some hq
      rcases fogs q (mem_of_find?_eq_some hq) fog with old | declared
      · exact absurd fog (find?_eq_none.mp found q old)
      · rw [h.noFog found] at declared
        cases declared
  case noFog =>
    intro none
    rw [known]
    refine h.noFog (find?_eq_none.mpr fun q hq => ?_)
    exact find?_eq_none.mp none q (hlater ▸ mem_append_left _ hq)

/-- A varying that is new is filled at the end of the log. -/
theorem fill {comments : List CodeOp} {code : CodeBuffer} {v : VaryingDecl} {value : String}
    (commented : e.vertex.code.applyAll comments = .ok code)
    (neat : ∀ op ∈ comments, op.Neat e'.Legible) (nesting : code.nesting = e.vertex.code.nesting)
    (pushed : e'.vertex.code = code.pushText (assignment (l.varyingRef .vertex v.name) value))
    (fresh : e.ledger.hasVarying v.name = false)
    (varyings : e'.ledger.varyings = e.ledger.varyings ++ [v])
    (unbroken : e'.Legible → Unbroken value)
    (origin : e'.calls = e.calls ∧ v.name = varyingName value ∨
      v.name = FogBlock.distanceVarying ∧ ∃ q, e'.calls = e.calls ++ [q] ∧
        g.isFogCall q = true ∧ value = q.distance) :
    Log g l (ops ++ comments ++ [.assign (l.varyingRef .vertex v.name) value]) e' := by
  have hname : v.name = varyingName value ∨ v.name = FogBlock.distanceVarying :=
    origin.elim (fun carried => .inl carried.2) fun fog => .inr fog.1
  have spared : ∀ {name}, IsVaryingName name →
      ∀ op ∈ comments, ¬op.Assigns (l.varyingRef .vertex name) :=
    fun hname op hop => (neat op hop).1.not_assigns hname l
  have known : ∀ name, e'.ledger.hasVarying name =
      (e.ledger.hasVarying name || v.name == name) := by
    simp [Ledger.hasVarying, varyings]
  have apart : ∀ w ∈ e.ledger.varyings, w.name ≠ v.name := by
    intro w hw same
    exact List.any_eq_false.mp fresh w hw (beq_iff_eq.mpr same)
  have other : ∀ {name}, name ≠ v.name →
      ¬(CodeOp.assign (l.varyingRef .vertex v.name) value).Assigns (l.varyingRef .vertex name) :=
    fun hne same => hne (Language.varyingRef_inj same).symm
  have replay := CodeBuffer.applyAll_append h.replay commented
  have level : code.regions = [] := by
    rw [← CodeBuffer.nesting_eq_nil_iff, nesting]
    exact CodeBuffer.nesting_eq_nil_iff.mpr h.level
  have new : FilledOnce (ops ++ comments ++ [.assign (l.varyingRef .vertex v.name) value])
      (l.varyingRef .vertex v.name) value := by
    have isName : IsVaryingName v.name := hname.symm.imp_right fun same => ⟨value, same⟩
    refine .last replay level fun op hop => ?_
    exact (List.mem_append.mp hop).elim (h.free v.name isName fresh op) (spared isName op)
  have old : ∀ {name value'}, IsVaryingName name → name ≠ v.name →
      FilledOnce ops (l.varyingRef .vertex name) value' →
      FilledOnce (ops ++ comments ++ [.assign (l.varyingRef .vertex v.name) value])
        (l.varyingRef .vertex name) value' := by
    intro name value' isName hne filled
    refine (filled.append (spared isName)).append fun op hop => ?_
    exact List.mem_singleton.mp hop ▸ other hne
  constructor
  case stages => exact fun s => (hstep.draft hs s).stage.trans (h.stages s)
  case level =>
    rw [← CodeBuffer.nesting_eq_nil_iff, pushed, CodeBuffer.nesting_pushText]
    exact CodeBuffer.nesting_eq_nil_iff.mpr level
  case replay =>
    refine CodeBuffer.applyAll_append replay ((CodeBuffer.applyAll_singleton _ _).trans ?_)
    rw [pushed]
    rfl
  case whole =>
    intro clean op hop
    rw [List.append_assoc, List.mem_append, List.mem_append, List.mem_singleton] at hop
    rcases hop with hop | hop | rfl
    · exact h.whole (clean.back hs hstep) op hop
    · exact (neat op hop).2 clean
    · have named := clean.varyings v (varyings ▸ List.mem_append_right _ List.mem_cons_self)
      exact isLine_assignment (l.unbroken_varyingRef _ named) (unbroken clean)
  case distinct =>
    rw [varyings, List.map_append, List.nodup_append]
    refine ⟨h.distinct, List.nodup_singleton _, ?_⟩
    rintro _ hw _ hv rfl
    obtain ⟨w, hw, same⟩ := List.mem_map.mp hw
    exact apart w hw (same.trans (List.mem_singleton.mp hv))
  case filled =>
    intro w hw
    rw [varyings, List.mem_append, List.mem_singleton] at hw
    rcases hw with hw | rfl
    · obtain ⟨value', hname', filled⟩ := h.filled w hw
      have isName : IsVaryingName w.name := hname'.symm.imp_right fun same => ⟨value', same⟩
      exact ⟨value', hname', old isName (apart w hw) filled⟩
    · exact ⟨value, hname, new⟩
  case free =>
    intro name isName hfree op hop
    rw [known, Bool.or_eq_false_iff, beq_eq_false_iff_ne] at hfree
    rw [List.append_assoc, List.mem_append, List.mem_append, List.mem_singleton] at hop
    rcases hop with hop | hop | rfl
    · exact h.free name isName hfree.1 op hop
    · exact spared isName op hop
    · exact other hfree.2.symm
  case distance =>
    intro q hq
    rcases origin with ⟨calls, carried⟩ | ⟨fog, first, calls, isFog, rfl⟩
    · rw [calls] at hq
      obtain ⟨listed, filled⟩ := h.distance q hq
      refine ⟨by rw [known, listed]; rfl, old (.inl rfl) ?_ filled⟩
      rw [carried]
      exact (varyingName_ne_distance value).symm
    · rw [fog] at fresh new
      have none : e.calls.find? g.isFogCall = none := by
        cases found : e.calls.find? g.isFogCall with
        | none => rfl
        | some q =>
          rw [(h.distance q found).1] at fresh
          cases fresh
      rw [calls, List.find?_append, none, Option.none_or, List.find?_singleton, if_pos isFog] at hq
      cases hq
      exact ⟨by simp [known, fog], by rw [fog]; exact new⟩
  case noFog =>
    intro none
    rcases origin with ⟨calls, carried⟩ | ⟨-, q, calls, isFog, -⟩
    · rw [known, h.noFog (calls ▸ none), Bool.false_or, beq_eq_false_iff_ne, carried]
      exact varyingName_ne_distance value
    · refine absurd isFog (List.find?_eq_none.mp none q ?_)
      rw [calls]
      exact List.mem_append_right _ List.mem_cons_self

theorem step : ∃ ops', Log g l ops' e' := by
  cases hstep.adds hs h.stages with
  | code more replay neat varyings fogs => exact ⟨_, h.code hs hstep replay neat varyings fogs⟩
  | fill comments code v value commented neat nesting pushed fresh varyings unbroken origin =>
    exact ⟨_, h.fill hs hstep commented neat nesting pushed fresh varyings unbroken origin⟩

end Log

/-- A pass that goes through has a log. -/
theorem run_log (hs : Ongoing g l e) (h : Log g l [] e)
    {vertexNodes fragmentNodes : List BlockId} (hrun : e.run vertexNodes fragmentNodes = .ok e') :
    ∃ ops, Log g l ops e' := by
  refine run_lasts (P := fun e => ∃ ops, Log g l ops e)
    (fun hs hstep h => h.elim fun _ h => h.step hs hstep) ?_ hs hrun ⟨[], h⟩
  rintro e₁ nodes - ⟨ops, log⟩
  exact ⟨ops, { log with
    stages := fun
      | .vertex => log.stages .vertex
      | .fragment => log.stages .fragment
    whole := fun clean => log.whole ⟨clean.names, clean.calls, clean.varyings⟩ }⟩

end Emission

namespace Material

variable {m : Material} {e : Emission}

theorem varyings_unwritten (hg : m.graph.Proper) : m.unwritten.ledger.varyings = [] := by
  obtain ⟨-, names, ledger⟩ := extends_prepare hg
  rw [show m.unwritten.ledger = _ from ledger]
  rfl

theorem emission_log (hg : m.graph.Proper) (he : m.emission = .ok e) :
    ∃ ops, Emission.Log m.prepare.state.graph m.options.language ops e := by
  refine Emission.run_log (steady_unwritten hg)
    (.start rfl (varyings_unwritten hg) ?_ rfl) he
  exact fun
    | .vertex => rfl
    | .fragment => rfl

end Material

end ShaderGraph
