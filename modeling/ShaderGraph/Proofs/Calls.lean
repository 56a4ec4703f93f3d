import ShaderGraph.Pass.Emission
import ShaderGraph.Proofs.Outline

/-!
# What the parts of an emission do

One statement for each part of the second half of a pass: naming the outputs of a block, carrying a
value over to the fragment stage, reading the inputs of a block, following a teleport, and calling
a block (`Emission.call_spec`). Later modules use these and do not open the parts themselves.
-/

namespace ShaderGraph

open List Kind ShaderGraph.Graph

variable {b : Block}

/-- The symbol of an output; empty if there is no such output. -/
def Graph.symbolAt (g : Graph) (s : SocketRef) : String := (g.output? s).elim "" OutputSocket.symbol

theorem Graph.symbolAt_of_get? {g : Graph} {s : SocketRef} (h : g.get? s.block = some b) :
    g.symbolAt s = Emission.symbolOf b s.index := by
  simp [symbolAt, output?, h, Emission.symbolOf]

namespace Emission

variable {e e' : Emission} {stage : Stage} {id : BlockId} {b : Block} {l l' : Ledger}
  {ps : List OutputSocket} {g : Graph} {p : InputSocket} {i : Nat} {slot : Slot}
  {items : List (InputSocket × Nat)} {slots : List Slot} {s : SocketRef}

theorem orHalt_eq_ok_iff {α : Type} {r : Except GraphError α} {a : α} :
    e.orHalt r = .ok a ↔ r = .ok a := by
  cases r <;> simp [orHalt, Except.mapError]

/-! ## 1. Naming outputs -/

theorem map_nameOutputs {α : Type} (view : OutputSocket → α)
    (same : ∀ p symbol, view { p with symbol } = view p) (l : Ledger) (ps : List OutputSocket) :
    (nameOutputs l ps).1.map view = ps.map view := by
  induction ps generalizing l with
  | nil => rfl
  | cons p rest ih =>
    by_cases h : p.symbol.isEmpty = true <;> simp [nameOutputs, h, ih, same]

theorem nameOutputs_symbol_ne {q : OutputSocket} (hq : q ∈ (nameOutputs l ps).1) :
    q.symbol ≠ "" := by
  induction ps generalizing l with
  | nil => cases hq
  | cons p rest ih =>
    by_cases h : p.symbol.isEmpty = true
    · simp only [nameOutputs, h, if_true, mem_cons] at hq
      rcases hq with rfl | hq
      · exact l.freshVariable_ne_empty _
      · exact ih hq
    · simp only [nameOutputs, h, if_false, Bool.false_eq_true, mem_cons] at hq
      rcases hq with rfl | hq
      · exact fun hs => h (String.isEmpty_iff.mpr hs)
      · exact ih hq

theorem nameOutputs_eq_self (l : Ledger) (h : ∀ p ∈ ps, p.symbol ≠ "") :
    nameOutputs l ps = (ps, l) := by
  induction ps with
  | nil => rfl
  | cons p rest ih =>
    rw [forall_mem_cons] at h
    have hp : ¬p.symbol.isEmpty = true := fun hs => h.1 (String.isEmpty_iff.mp hs)
    simp [nameOutputs, hp, ih h.2]

theorem grows_nameOutputs (l : Ledger) (ps : List OutputSocket) :
    l.Grows (nameOutputs l ps).2 := by
  induction ps generalizing l with
  | nil => exact .refl l
  | cons p rest ih =>
    by_cases h : p.symbol.isEmpty = true
    · simp only [nameOutputs, h, if_true]
      exact (Ledger.Grows.freshVariable l _).trans (ih _)
    · simp only [nameOutputs, h, if_false, Bool.false_eq_true]
      exact ih l

/-! ## 2. Varyings -/

def varyingName (symbol : String) : String := "v_" ++ symbol

/-- The line of the vertex stage that fills a varying. -/
def varyingLine (l : Language) (symbol : String) : String :=
  l.varyingRef .vertex (varyingName symbol) ++ " = " ++ symbol ++ ";\n"

/-- What carrying an output over does: the varying is there, or it is declared and filled. -/
structure Carried (source : SocketRef) (e e' : Emission) (reference : String) : Prop where
  reference_eq : reference =
    e.fragment.language.varyingRef .fragment (varyingName (e.graph.symbolAt source))
  graph : e'.graph = e.graph
  fragment : e'.fragment = e.fragment
  built : e'.built = e.built
  calls : e'.calls = e.calls
  rest : (e.ledger.hasVarying (varyingName (e.graph.symbolAt source)) = true ∧
      e'.ledger = e.ledger ∧ e'.vertex = e.vertex) ∨
    ∃ type, e'.ledger = e.ledger.addVarying
        { name := varyingName (e.graph.symbolAt source), type } ∧
      e'.vertex = e.vertex.push (varyingLine e.vertex.language (e.graph.symbolAt source))
  /-- A varying that is declared is not filled again. -/
  declared : e.ledger.hasVarying (varyingName (e.graph.symbolAt source)) = true →
    e'.ledger = e.ledger ∧ e'.vertex = e.vertex

theorem carry_spec {source : SocketRef} {reference : String}
    (h : e.carry source = .ok (reference, e')) : Carried source e e' reference := by
  obtain ⟨p, hp, h⟩ := bind_eq_ok_iff.mp h
  have symbol := symbolAt_of_get? (find_eq_ok_iff.mp hp)
  rw [← symbol] at h
  dsimp only at h
  split at h
  · rename_i known
    cases h
    exact ⟨rfl, rfl, rfl, rfl, rfl, .inl ⟨known, rfl, rfl⟩, fun _ => ⟨rfl, rfl⟩⟩
  · rename_i fresh
    cases h
    exact ⟨rfl, rfl, rfl, rfl, rfl, .inr ⟨_, rfl, rfl⟩, fun known => absurd known fresh⟩

/-! ## 3. Slots -/

/-- The symbol that a block reads at an input: its own if that is enforced, else that of the output
that feeds it. -/
def readSymbol (g : Graph) (p : InputSocket) : String :=
  if p.enforced then p.symbol else p.link.elim "" g.symbolAt

/-- What a block reads at an input. There is a problem only if an input that reads its output
directly does not accept the type found there. -/
theorem inputSlot_spec {problem : Option String} (h : inputSlot g b p i = .ok (slot, problem)) :
    (slot.name = p.spec.name ∧ slot.connected = p.isConnected ∧ slot.symbol = readSymbol g p) ∧
      (∀ message, problem = some message → Remark message) ∧
      (problem = none → p.enforced = false → ∀ s, p.link = some s →
        p.spec.accepts (g.outputType s) = true) := by
  unfold inputSlot at h
  unfold readSymbol
  split at h
  · rename_i enforced
    cases h
    exact ⟨by simp [enforced], nofun, fun _ direct => by rw [direct] at enforced; cases enforced⟩
  · rename_i direct
    cases hl : p.link with
    | none =>
      simp only [hl] at h
      cases h
      exact ⟨by simp [direct], nofun, fun _ _ _ h => nomatch h⟩
    | some source =>
      simp only [hl] at h
      obtain ⟨producer, hp, h⟩ := bind_eq_ok_iff.mp h
      obtain ⟨rfl, rfl⟩ := Prod.mk.inj (Except.ok.inj h)
      refine ⟨by simp [direct, symbolAt_of_get? (find_eq_ok_iff.mp hp)], ?_, ?_⟩
      · intro message hm
        split at hm
        · cases hm
        · cases hm
          exact (g.outputType source).remark_name.word " cannot accept a value of type " rfl rfl _
      · rintro fine - s ⟨⟩
        by_contra refused
        rw [if_neg refused] at fine
        cases fine

/-- What reading the inputs of a block comes to. -/
structure SlotsRead (g : Graph) (items : List (InputSocket × Nat)) (l : Ledger) (slots : List Slot)
    (l' : Ledger) : Prop where
  /-- There is one slot for each input. It has the name of the input and the symbol read there, and
  tells whether the input is connected. -/
  slots : slots.map (fun s => (s.name, s.connected, s.symbol)) =
    items.map fun a => (a.1.spec.name, a.1.isConnected, readSymbol g a.1)
  grows : l.Grows l'
  ledger : l' = { l with customErrors := l'.customErrors }
  /-- Where nothing is reported, every input that reads its output directly accepts its type. -/
  accepted : l'.customErrors = [] → ∀ a ∈ items, a.1.enforced = false → ∀ s, a.1.link = some s →
    a.1.spec.accepts (g.outputType s) = true

theorem inputSlots_spec (h : inputSlots g b items l = .ok (slots, l')) :
    SlotsRead g items l slots l' := by
  induction items generalizing l slots with
  | nil =>
    obtain ⟨rfl, rfl⟩ := Prod.mk.inj (Except.ok.inj h)
    exact ⟨rfl, .refl l, rfl, fun _ _ h => nomatch h⟩
  | cons a rest ih =>
    obtain ⟨⟨slot, problem⟩, hslot, h⟩ := bind_eq_ok_iff.mp h
    obtain ⟨⟨slots', l''⟩, hrest, h⟩ := bind_eq_ok_iff.mp h
    cases h
    obtain ⟨⟨hname, hconnected, hsymbol⟩, remark, accepts⟩ := inputSlot_spec hslot
    obtain ⟨names, grows, ledger, accepted⟩ := ih hrest
    have first : l.Grows (problem.elim l l.addError) := by
      cases problem with
      | none => exact .refl l
      | some message => exact .addError l (remark message rfl)
    refine ⟨by simp only [map_cons, names, hname, hconnected, hsymbol], first.trans grows, ?_,
      fun clean => forall_mem_cons.mpr ⟨?_, accepted clean⟩⟩
    · rw [ledger]
      cases problem <;> rfl
    · cases problem with
      | none => exact accepts rfl
      | some message =>
        have noted : message ∈ l'.customErrors := grows.customErrors (mem_pushNew.mpr (.inr rfl))
        rw [clean] at noted
        cases noted

theorem inputSlots_getElem? (h : inputSlots g b b.inputs.zipIdx l = .ok (slots, l'))
    (hp : b.inputs[i]? = some p) :
    ∃ slot, slots[i]? = some slot ∧ slot.name = p.spec.name ∧ slot.connected = p.isConnected ∧
      slot.symbol = readSymbol g p := by
  have same := congrArg (fun xs => xs[i]?) (inputSlots_spec h).slots
  simp only [getElem?_map, getElem?_zipIdx, hp, Option.map_some,
    Option.map_eq_some_iff] at same
  obtain ⟨slot, hslot, heq⟩ := same
  obtain ⟨name, rest⟩ := Prod.mk.inj heq
  exact ⟨slot, hslot, name, Prod.mk.inj rest⟩

theorem length_inputSlots (h : inputSlots g b b.inputs.zipIdx l = .ok (slots, l')) :
    slots.length = b.inputs.length := by
  have same := congrArg length (inputSlots_spec h).slots
  simpa using same

/-- A value of the vertex stage that a teleport brings to the fragment stage. -/
def ComesFromVertex (stage : Stage) (producer : Block) : Prop :=
  stage = .fragment ∧ staysInVertex producer = true ∧
    (!producer.kind.isInput || producer.kind.isAttribute) = true

/-- What comes out of a teleport. -/
inductive Entered (stage : Stage) (entry : BlockId) (e e' : Emission) (slot : Slot) : Prop
  /-- Nothing is connected to the entry. -/
  | free : slot.connected = false → slot.symbol = "" → e' = e → Entered stage entry e e' slot
  /-- The value is carried over from the vertex stage. -/
  | crossing {source : SocketRef} {producer : Block} : e.graph.source? ⟨entry, 0⟩ = some source →
      e.graph.get? source.block = some producer → ComesFromVertex stage producer →
      Carried source e e' slot.symbol → Entered stage entry e e' slot
  /-- The value is what the entry reads. -/
  | reading {socket : InputSocket} {source : SocketRef} {producer : Block} :
      e.graph.input? ⟨entry, 0⟩ = some socket → socket.link = some source →
      e.graph.get? source.block = some producer → ¬ComesFromVertex stage producer →
      slot.symbol = readSymbol e.graph socket → e' = e → Entered stage entry e e' slot

theorem teleportSlot_spec {entry : BlockId} (h : e.teleportSlot stage entry = .ok (slot, e')) :
    slot.name = "entry" ∧ Entered stage entry e e' slot := by
  obtain ⟨b, hb, h⟩ := bind_eq_ok_iff.mp h
  rw [find_eq_ok_iff] at hb
  cases hin : b.inputs with
  | nil =>
    rw [hin] at h
    cases h
    exact ⟨rfl, .free rfl rfl rfl⟩
  | cons socket others =>
    have hsocket : e.graph.input? ⟨entry, 0⟩ = some socket :=
      input?_eq_some_iff.mpr ⟨b, hb, by rw [hin]; rfl⟩
    simp only [hin] at h
    cases hl : socket.link with
    | none =>
      simp only [hl] at h
      cases h
      exact ⟨rfl, .free rfl rfl rfl⟩
    | some source =>
      simp only [hl] at h
      obtain ⟨producer, hp, h⟩ := bind_eq_ok_iff.mp h
      rw [find_eq_ok_iff] at hp
      split at h
      · rename_i crosses
        obtain ⟨⟨symbol, e₁⟩, hcarry, h⟩ := bind_eq_ok_iff.mp h
        cases h
        have hsource := source?_eq_some_iff.mpr ⟨socket, hsocket, hl⟩
        exact ⟨rfl, .crossing hsource hp crosses (carry_spec hcarry)⟩
      · rename_i stays
        cases h
        refine ⟨rfl, .reading hsocket hl hp stays ?_ rfl⟩
        simp [readSymbol, hl, symbolAt_of_get? hp]

/-! ## 4. Calls -/

def draft (e : Emission) : Stage → StageDraft
  | .vertex => e.vertex
  | .fragment => e.fragment

theorem grows_draftFor (e : Emission) (b : Block) (stage : Stage) :
    (e.draft stage).Grows (e.draftFor b stage) := by
  cases stage <;> unfold draftFor draft <;> dsimp only <;> split
  · exact .refl _
  · exact .comment _ _
  · exact .refl _
  · exact .comment _ _

/-- A comment is code. -/
theorem draftFor_eq (e : Emission) (b : Block) (stage : Stage) :
    ∃ code, e.draftFor b stage = { e.draft stage with code } := by
  cases stage <;> unfold draftFor draft StageDraft.comment <;> dsimp only <;> split <;>
    try exact ⟨_, rfl⟩
  all_goals split <;> exact ⟨_, rfl⟩

theorem grows_noteResult (b : Block) (stage : Stage) (l : Ledger) :
    l.Grows (noteResult b stage l) := by
  unfold noteResult
  split
  · cases stage <;> exact .of_eq rfl rfl rfl rfl
  · exact .refl l

def site (e : Emission) (stage : Stage) (b : Block) (inputs : List Slot) (l : Ledger) : Site Kind :=
  { kind := b.kind, block := b.id, blockName := b.name, className := b.className
    inputs
    outputs := outputSlots e.graph b
    draft := e.draftFor b stage
    ledger := noteResult b stage l
    vertexDraft := match stage with
      | .vertex => none
      | .fragment => some e.vertex }

/-- The ledger behind a build: if it failed, its fault is noted. -/
def noteFault (l : Ledger) (message : BuildFault → String) : Except BuildFault Unit → Ledger
  | .ok _ => l
  | .error fault => l.addError (message fault)

theorem grows_noteFault (l : Ledger) {message : BuildFault → String}
    {result : Except BuildFault Unit}
    (h : ∀ fault, result = .error fault → Remark (message fault)) :
    l.Grows (noteFault l message result) := by
  cases result with
  | ok _ => exact .refl _
  | error fault => exact .addError _ (h fault rfl)

theorem roster_noteFault (l : Ledger) (message : BuildFault → String)
    (result : Except BuildFault Unit) : (noteFault l message result).roster = l.roster := by
  cases result <;> rfl

theorem call_eq_ok {teleported : List Slot} (h : e.call stage id teleported = .ok e') :
    ∃ b slots l, e.graph.get? id = some b ∧
      inputSlots e.graph b b.inputs.zipIdx e.ledger = .ok (slots, l) ∧
      let t := Emit.after Kind.build (e.site stage b (slots ++ teleported) l)
      e'.graph = e.graph.modify id (close stage t.kind t.outputs) ∧
      t.ledger.Grows e'.ledger ∧ e'.ledger.roster = t.ledger.roster ∧
      e'.built = id :: e.built ∧
      e'.calls = e.calls ++ [⟨id, stage, slots ++ teleported, t.outputs⟩] ∧
      e'.draft stage = t.draft ∧
      (stage = .vertex → e'.fragment = e.fragment) ∧
      (stage = .fragment → e'.vertex = t.vertexDraft.getD e.vertex) := by
  obtain ⟨b, hb, h⟩ := bind_eq_ok_iff.mp h
  obtain ⟨⟨slots, l⟩, hslots, h⟩ := bind_eq_ok_iff.mp h
  rw [find_eq_ok_iff] at hb
  obtain rfl := id_of_get? hb
  refine ⟨b, slots, l, hb, hslots, ?_⟩
  cases h
  have noted : ∀ (s : Site Kind) fault, (Kind.build.run.run s).1 = .error fault →
      Remark (b.name ++ "[" ++ b.className ++ "]: " ++ fault.message) :=
    fun s fault hf => (Kind.plain_build hf).remark _
  cases stage with
  | vertex =>
    exact ⟨rfl, grows_noteFault _ (noted _), roster_noteFault _ _ _, rfl, rfl, rfl, fun _ => rfl,
      (by rintro ⟨⟩)⟩
  | fragment =>
    exact ⟨rfl, grows_noteFault _ (noted _), roster_noteFault _ _ _, rfl, rfl, rfl, (by rintro ⟨⟩),
      fun _ => rfl⟩

theorem zipWith_outputSlots (g : Graph) (b : Block) :
    b.outputs.zipWith (fun socket slot => { socket with symbol := slot.symbol })
      (outputSlots g b) = b.outputs := by
  refine ext_getElem? fun i => ?_
  simp only [outputSlots, getElem?_zipWith, getElem?_map, getElem?_zipIdx]
  cases b.outputs[i]? <;> rfl

theorem symbols_outputSlots (g : Graph) (b : Block) :
    (outputSlots g b).map Slot.symbol = b.outputs.map OutputSocket.symbol := by
  refine ext_getElem? fun i => ?_
  simp only [outputSlots, getElem?_map, getElem?_zipIdx]
  cases b.outputs[i]? <;> rfl

end Emission

/-- The outputs of a block have the symbols that they keep for the rest of the pass. -/
def Block.Settled (l : Language) (b : Block) : Prop :=
  match b.kind with
  | .input i => ∀ p ∈ b.outputs, i.Named l p.symbol
  | _ => ∀ p ∈ b.outputs, p.symbol ≠ ""

theorem Block.settled_iff {l : Language} (h : b.kind.isInput = false) :
    b.Settled l ↔ ∀ p ∈ b.outputs, p.symbol ≠ "" := by
  unfold Settled
  cases hk : b.kind with
  | input i => rw [hk] at h; cases h
  | _ => rfl

namespace Emission

variable {e e' : Emission} {stage : Stage} {id : BlockId} {b b' : Block} {s : Site Kind} {g : Graph}

/-- What the build of a block leaves at the place `s` of its call. -/
structure Leaves (stage : Stage) (b : Block) (s t : Site Kind) : Prop where
  alike : b.kind.Alike t.kind
  draft : s.draft.Grows t.draft
  ledger : s.ledger.Grows t.ledger
  vertexDraft : t.vertexDraft = s.vertexDraft ∨
    ∃ decl, t.vertexDraft = s.vertexDraft.map (·.addAttribute decl)
  attributes : s.vertexDraft.isSome = true → t.draft.attributes = s.draft.attributes
  specs : ((close stage t.kind t.outputs b).outputs.map fun p => (p.spec, p.endpoints)) =
    b.outputs.map fun p => (p.spec, p.endpoints)
  settled : (b.kind.isInput = false → ∀ p ∈ b.outputs, p.symbol ≠ "") →
    (close stage t.kind t.outputs b).Settled s.draft.language
  again : b.Settled s.draft.language → (close stage t.kind t.outputs b).outputs = b.outputs
  declared : b.kind.isInput = true → b.kind.isAttribute = false →
    ∀ p ∈ (close stage t.kind t.outputs b).outputs, t.draft.Declares p.symbol
  symbols : t.outputs.map Slot.symbol =
    (close stage t.kind t.outputs b).outputs.map OutputSocket.symbol

theorem leaves_of_not_isInput (h : b.kind.isInput = false) (stage : Stage) (hkind : s.kind = b.kind)
    (houtputs : s.outputs = outputSlots g b) : Leaves stage b s (Emit.after Kind.build s) := by
  have alike := alike_of_bare (hkind ▸ bare_build s)
  have plain : s.kind.isInput = false := hkind ▸ h
  have grows := grows_build s
  have outputs := grows.outputs plain
  have same :
      (close stage (Emit.after Kind.build s).kind (Emit.after Kind.build s).outputs b).outputs =
        b.outputs := by
    rw [outputs, houtputs]
    exact zipWith_outputSlots g b
  have notInput : (Emit.after Kind.build s).kind.isInput = false := by
    rw [← h]
    exact congrArg Kind.Traits.isInput alike.traits
  refine ⟨alike, grows.draft, grows.ledger, .inl (grows.vertexDraft plain),
    fun _ => grows.attributes plain, by rw [same], ?_, fun _ => same, ?_, ?_⟩
  · intro named
    rw [Block.settled_iff notInput, same]
    exact named h
  · intro hin
    rw [h] at hin
    cases hin
  · rw [same, outputs, houtputs]
    exact symbols_outputSlots g b

theorem leaves_of_isInput (h : b.kind.isInput = true) (fitted : b.Fitted) (stage : Stage)
    (hkind : s.kind = b.kind) (houtputs : s.outputs = outputSlots g b) :
    Leaves stage b s (Emit.after Kind.build s) := by
  obtain ⟨-, o, ho, hname⟩ := fitted.of_isInput h
  cases hk : b.kind with
  | input i =>
    have opened : Emit.after Kind.build s =
        (Emit.after InputBlock.build (s.withKind i)).withKind
          (.input (Emit.after InputBlock.build (s.withKind i)).kind) := by
      rw [after_build, hkind, hk]
      rfl
    have hslot : (s.withKind i).outputs = outputSlots g b := houtputs
    simp only [outputSlots, ho, zipIdx_cons, zipIdx_nil, map_cons, map_nil]
      at hslot
    obtain ⟨symbol, spec⟩ := InputBlock.build_spec hslot hname
    rw [opened]
    have closed : ∀ kind,
        (close stage kind (Emit.after InputBlock.build (s.withKind i)).outputs b).outputs =
          [{ o with symbol }] := by
      intro kind
      simp only [close, ho, spec.outputs, zipWith_cons_cons, zipWith_nil_left]
    have grows := grows_build s
    have alike := alike_of_bare (hkind ▸ bare_build s)
    rw [opened] at grows alike
    refine ⟨alike, grows.draft, grows.ledger, spec.vertexDraft, spec.attributes, ?_, ?_, ?_, ?_, ?_⟩
    · change map _
        (close stage _ (Emit.after InputBlock.build (s.withKind i)).outputs b).outputs = _
      rw [closed, ho]
      rfl
    · intro _ p hp
      change p ∈ (close stage _ (Emit.after InputBlock.build (s.withKind i)).outputs
        b).outputs at hp
      rw [closed, mem_singleton] at hp
      rw [hp]
      exact spec.named
    · intro hs
      have named : i.Named s.draft.language o.symbol := by
        unfold Block.Settled at hs
        rw [hk] at hs
        exact hs o (by rw [ho]; exact mem_singleton_self o)
      change (close stage _ (Emit.after InputBlock.build (s.withKind i)).outputs b).outputs = _
      rw [closed, ho, spec.again named]
    · intro _ hattribute p hp
      rw [hk] at hattribute
      change p ∈ (close stage _ (Emit.after InputBlock.build (s.withKind i)).outputs
        b).outputs at hp
      rw [closed, mem_singleton] at hp
      rw [hp]
      exact spec.declared hattribute
    · change (Emit.after InputBlock.build (s.withKind i)).outputs.map Slot.symbol =
        (close stage _ (Emit.after InputBlock.build (s.withKind i)).outputs b).outputs.map _
      rw [closed, spec.outputs]
      rfl
  | _ => rw [hk] at h; cases h

/-- A teleport that brings nothing is reported. -/
theorem connected_of_isTeleportOut (h : s.kind.isTeleportOut = true)
    (clean : (Emit.after Kind.build s).ledger.customErrors = []) :
    ∃ slot, s.inputs.find? (fun slot => slot.name == "entry") = some slot ∧
      slot.connected = true := by
  have noted : ∀ (l : Ledger) (message : String), (l.addError message).customErrors ≠ [] := by
    intro l message
    exact ne_nil_of_mem (mem_pushNew.mpr (.inr rfl))
  cases hk : s.kind with
  | teleportOut t =>
    rw [after_build, hk] at clean
    change (Emit.after TeleportOut.build (s.withKind t)).ledger.customErrors = [] at clean
    unfold TeleportOut.build at clean
    rw [Emit.after_get_bind] at clean
    have inputs : (s.withKind t).inputs = s.inputs := rfl
    cases hfound : s.inputs.find? fun slot => slot.name == "entry" with
    | none =>
      simp only [inputs, hfound] at clean
      exact absurd clean (noted _ _)
    | some slot =>
      simp only [inputs, hfound] at clean
      by_cases hconnected : slot.connected = true
      · exact ⟨slot, rfl, hconnected⟩
      · rw [if_neg hconnected] at clean
        exact absurd clean (noted _ _)
  | _ => rw [hk] at h; cases h

/-- What a call does. The block `b` becomes `b'`, and `made` is the record of the call. -/
structure Called (stage : Stage) (id : BlockId) (teleported : List Slot) (e e' : Emission)
    (b b' : Block) (made : BuildCall) : Prop where
  before : e.graph.get? id = some b
  get? : ∀ x, e'.graph.get? x = if x = id then some b' else e.graph.get? x
  outlines : e'.graph.outlines = e.graph.outlines
  counter : e'.graph.nextId = e.graph.nextId
  outline : b'.outline = b.outline
  inputs : b'.inputs = b.inputs
  builtIn : b'.builtIn = some stage
  settled : (b.kind.isInput = false → ∀ p ∈ b.outputs, p.symbol ≠ "") →
    b'.Settled (e.draft stage).language
  /-- A block that was settled keeps its symbols. -/
  again : b.Settled (e.draft stage).language → b'.outputs = b.outputs
  /-- A uniform, a constant or a system value is declared in the stage. -/
  declared : b.kind.isInput = true → b.kind.isAttribute = false →
    ∀ p ∈ b'.outputs, (e'.draft stage).Declares p.symbol
  built : e'.built = id :: e.built
  calls : e'.calls = e.calls ++ [made]
  made_block : made.block = id
  made_stage : made.stage = stage
  made_outputs : made.outputs.map Slot.symbol = b'.outputs.map OutputSocket.symbol
  slots : ∀ (i : Nat) (p : InputSocket), b.inputs[i]? = some p →
    ∃ slot : Slot, made.inputs[i]? = some slot ∧ slot.name = p.spec.name ∧
      slot.symbol = readSymbol e.graph p
  teleported : ∀ i : Nat, made.inputs[b.inputs.length + i]? = teleported[i]?
  /-- Where nothing is reported, what is read directly has a type that is accepted. -/
  accepted : e'.ledger.customErrors = [] → ∀ (i : Nat) (p : InputSocket) (s : SocketRef),
    b.inputs[i]? = some p → p.link = some s → p.enforced = false →
    p.spec.accepts (e.graph.outputType s) = true
  /-- Where nothing is reported, a teleport brings something. -/
  entered : b.kind.isTeleportOut = true → e'.ledger.customErrors = [] →
    ∃ slot, made.inputs.find? (fun slot => slot.name == "entry") = some slot ∧
      slot.connected = true
  ledger : e.ledger.Grows e'.ledger
  draft : (e.draft stage).Grows (e'.draft stage)
  fragment : stage = .vertex → e'.fragment = e.fragment
  vertex : stage = .fragment →
    e'.vertex = e.vertex ∨ ∃ decl, e'.vertex = e.vertex.addAttribute decl
  attributes : stage = .fragment → e'.fragment.attributes = e.fragment.attributes

theorem call_spec {teleported : List Slot} (hd : e.graph.ids.Nodup)
    (fitted : ∀ b, e.graph.get? id = some b → b.Fitted)
    (h : e.call stage id teleported = .ok e') :
    ∃ b b' made, Called stage id teleported e e' b b' made := by
  obtain ⟨b, slots, l, hb, hslots, hgraph, hledger, -, hbuilt, hcalls, hdraft,
    hfragment, hvertex⟩ :=
    call_eq_ok h
  have hl : e.ledger.Grows (noteResult b stage l) :=
    (inputSlots_spec hslots).grows.trans (grows_noteResult b stage l)
  have hdraftFor := e.grows_draftFor b stage
  have leaves : Leaves stage b (e.site stage b (slots ++ teleported) l)
      (Emit.after Kind.build (e.site stage b (slots ++ teleported) l)) := by
    cases hin : b.kind.isInput with
    | true => exact leaves_of_isInput hin (fitted b hb) stage rfl rfl
    | false => exact leaves_of_not_isInput hin stage rfl rfl
  have entered : b.kind.isTeleportOut = true → e'.ledger.customErrors = [] →
      ∃ slot, (slots ++ teleported).find? (fun slot => slot.name == "entry") = some slot ∧
        slot.connected = true := by
    intro hout clean
    refine connected_of_isTeleportOut (s := e.site stage b (slots ++ teleported) l) hout ?_
    exact subset_nil.mp (clean ▸ hledger.customErrors)
  have accepted : e'.ledger.customErrors = [] → ∀ (i : Nat) (p : InputSocket) (s : SocketRef),
      b.inputs[i]? = some p → p.link = some s → p.enforced = false →
      p.spec.accepts (e.graph.outputType s) = true := by
    intro clean i p s hp hl direct
    have grows : l.Grows e'.ledger :=
      ((grows_noteResult b stage l).trans leaves.ledger).trans hledger
    have hmem : (p, i) ∈ b.inputs.zipIdx := mk_mem_zipIdx_iff_getElem?.mpr hp
    exact (inputSlots_spec hslots).accepted
      (subset_nil.mp (clean ▸ grows.customErrors)) _ hmem direct s
      hl
  generalize Emit.after Kind.build (e.site stage b (slots ++ teleported) l) = t at *
  have language : (e.site stage b (slots ++ teleported) l).draft.language =
      (e.draft stage).language := hdraftFor.language
  have outline : (close stage t.kind t.outputs b).outline = b.outline := by
    obtain ⟨traits, outputs, target, entry⟩ := leaves.alike
    simp only [Block.outline, Block.target, close, Block.Outline.mk.injEq, traits, outputs, target,
      entry, true_and]
    exact leaves.specs
  refine ⟨b, close stage t.kind t.outputs b, ⟨id, stage, slots ++ teleported, t.outputs⟩, ?_⟩
  constructor
  case before => exact hb
  case get? =>
    intro x
    rw [hgraph, get?_modify]
    by_cases hx : x = id
    · rw [if_pos hx, if_pos hx, hx, hb]
      rfl
    · rw [if_neg hx, if_neg hx]
  case outlines =>
    rw [hgraph]
    exact outlines_modify hd hb outline
  case counter => rw [hgraph]; rfl
  case outline => exact outline
  case inputs => rfl
  case builtIn => rfl
  case settled => rw [← language]; exact leaves.settled
  case again => rw [← language]; exact leaves.again
  case declared => rw [hdraft]; exact leaves.declared
  case built => exact hbuilt
  case calls => exact hcalls
  case made_block => rfl
  case made_stage => rfl
  case made_outputs => exact leaves.symbols
  case slots =>
    intro i p hp
    obtain ⟨slot, hslot, hname, -, hsymbol⟩ := inputSlots_getElem? hslots hp
    have hlt : i < slots.length := (List.getElem?_eq_some_iff.mp hslot).1
    exact ⟨slot, by rw [getElem?_append_left hlt]; exact hslot, hname, hsymbol⟩
  case teleported =>
    intro i
    rw [← length_inputSlots hslots, getElem?_append_right (Nat.le_add_right _ _),
      Nat.add_sub_cancel_left]
  case accepted => exact accepted
  case entered => exact entered
  case ledger => exact (hl.trans leaves.ledger).trans hledger
  case draft => rw [hdraft]; exact hdraftFor.trans leaves.draft
  case fragment => exact hfragment
  case vertex =>
    intro hstage
    rw [hvertex hstage]
    subst hstage
    rcases leaves.vertexDraft with same | ⟨decl, changed⟩
    · exact .inl (by rw [same]; rfl)
    · exact .inr ⟨decl, by rw [changed]; rfl⟩
  case attributes =>
    intro hstage
    subst hstage
    change (e'.draft .fragment).attributes = _
    rw [hdraft, leaves.attributes rfl]
    obtain ⟨code, same⟩ := e.draftFor_eq b .fragment
    change (e.draftFor b .fragment).attributes = _
    rw [same]
    rfl

end Emission

end ShaderGraph
