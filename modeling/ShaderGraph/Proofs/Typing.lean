import ShaderGraph.Proofs.Schedule

/-!
# Which inputs have their types checked

When a block is called, every input that reads its output directly has to accept the type that is
found there; otherwise the pass reports it. An input that reads a varying is given the varying as
it is. So after a build without problems an input accepts the type of the output that feeds it, or
it reads the varying of that output (`Material.build_types_checked`), and in the second case the
types may differ (`Material.stretched_type_unchecked`).

Types are found by a search through the graph. They depend on outlines only
(`Graph.outputType_of_outlines`), so that what a call has checked stays true for the rest of the
pass.
-/

namespace ShaderGraph

/-! ## 1. Types depend on outlines -/

/-- Which kind decides the type of its output is known from the inputs that it declares. -/
theorem Kind.resolveOutput_of_inputs {k k' : Kind} (h : k'.inputs = k.inputs) :
    k'.resolveOutput = k.resolveOutput := by
  have view : ∀ k : Kind, k.resolveOutput =
      if k.inputs = MathOp.inputs then (Kind.math .add).resolveOutput
      else if k.inputs = Lerp.inputs then Kind.lerp.resolveOutput
      else fun _ => none := by
    intro k
    cases k with
    | math op =>
      funext types
      match types with
      | [] | [_] | [_, _] | _ :: _ :: _ :: _ => rfl
    | _ => rfl
  rw [view k', view k, h]

namespace Graph

variable {g g' : Graph}

theorem inputTypeBy_of_outlines (h : g'.outlines = g.outlines) (types : SocketRef → ValueType)
    (r : SocketRef) : g'.inputTypeBy types r = g.inputTypeBy types r := by
  have view : ∀ g : Graph, g.inputTypeBy types r =
      match (g.outlines.find? fun o => o.id == r.block).bind fun o => o.inputs[r.index]? with
      | none => .float
      | some (_, some source) => types source
      | some (spec, none) => if spec.type.isConcrete then spec.type else .float := by
    intro g
    rw [← map_outline_get?, inputTypeBy]
    cases g.get? r.block with
    | none => rfl
    | some b =>
      simp only [Option.bind_some, Option.map_some, Block.outline, List.getElem?_map]
      cases b.inputs[r.index]? with
      | none => rfl
      | some p => cases hl : p.link <;> simp [hl]
  rw [view, view, h]

theorem outputTypeWithin_of_outlines (h : g'.outlines = g.outlines) (steps : Nat) (r : SocketRef) :
    g'.outputTypeWithin steps r = g.outputTypeWithin steps r := by
  induction steps generalizing r with
  | zero => rfl
  | succ steps ih =>
    have inputs : g'.inputTypeBy (g'.outputTypeWithin steps) =
        g.inputTypeBy (g.outputTypeWithin steps) := by
      funext p
      rw [inputTypeBy_of_outlines h, funext ih]
    unfold outputTypeWithin
    cases hb : g.get? r.block with
    | none =>
      have hb' : g'.get? r.block = none := by
        rw [get?_eq_none_iff, ids_of_outlines h, ← get?_eq_none_iff]
        exact hb
      rw [hb']
    | some b =>
      obtain ⟨b', hb', same⟩ := exists_get?_of_outlines h hb
      have length : b'.inputs.length = b.inputs.length := by
        simpa [Block.outline] using congrArg (fun o => o.inputs.length) same
      have resolve : b'.kind.resolveOutput = b.kind.resolveOutput :=
        Kind.resolveOutput_of_inputs (congrArg (fun o => o.traits.inputs) same)
      have spec : b'.outputs[r.index]?.map OutputSocket.spec =
          b.outputs[r.index]?.map OutputSocket.spec := by
        simpa [Block.outline, Function.comp_def] using
          congrArg (fun o => o.outputs[r.index]?.map Prod.fst) same
      simp only [hb', inputs, length, resolve, Block.entry_of_outline same]
      cases ho : b.outputs[r.index]? with
      | none =>
        rw [ho] at spec
        rw [Option.map_eq_none_iff.mp spec]
      | some output =>
        rw [ho, Option.map_some, Option.map_eq_some_iff] at spec
        obtain ⟨output', ho', hspec⟩ := spec
        rw [ho']
        simp only [hspec]

theorem outputType_of_outlines (h : g'.outlines = g.outlines) (r : SocketRef) :
    g'.outputType r = g.outputType r := by
  rw [outputType, outputType, length_of_outlines h, outputTypeWithin_of_outlines h]

end Graph

/-! ## 2. Checked calls -/

namespace Emission

variable {e e' : Emission} {stage : Stage} {g : Graph} {l : Language} {S T : BlockId → Prop}

/-- The varying of an output that was made. -/
def ReadsVarying (l : Language) (e : Emission) (source : SocketRef) (symbol : String) : Prop :=
  (∃ q ∈ e.calls, q.block = source.block) ∧ IsVarying l e source symbol

theorem ReadsVarying.step (hs : Ongoing g l e) (h : Step l stage T e e')
    (hall : AllSettled l e) {source : SocketRef} {symbol : String}
    (hv : ReadsVarying l e source symbol) : ReadsVarying l e' source symbol := by
  obtain ⟨⟨q, hq, hqs⟩, varying⟩ := hv
  exact ⟨⟨q, h.calls_subset hs hq, hqs⟩, varying.step hs h hall ⟨q, hq, hqs⟩⟩

/-- Every input of the called block accepts the type of the output that feeds it, or the call has
read the varying of this output there. -/
def TypeChecked (l : Language) (e : Emission) (call : BuildCall) : Prop :=
  ∀ (b : Block) (i : Nat) (p : InputSocket) (s : SocketRef), e.graph.get? call.block = some b →
    b.inputs[i]? = some p → p.link = some s →
    p.spec.accepts (e.graph.outputType s) = true ∨
      ∃ slot, call.inputs[i]? = some slot ∧ ReadsVarying l e s slot.symbol

theorem TypeChecked.step (hs : Ongoing g l e) (h : Step l stage T e e')
    (hall : AllSettled l e) {call : BuildCall} (hc : TypeChecked l e call) :
    TypeChecked l e' call := by
  intro b' i p' s hb' hp' hl'
  have same := (h.steady hs).outlines.trans hs.outlines.symm
  obtain ⟨b, hb, hadv, -⟩ := h.advances_back hs hb'
  obtain ⟨p, hp, hspec, hlink⟩ := Block.input_of_outline hadv.outline.symm hp'
  rcases hc b i p s hb hp (hlink.trans hl') with accepts | ⟨slot, hslot, varying⟩
  · rw [Graph.outputType_of_outlines same, ← hspec]
    exact .inl accepts
  · exact .inr ⟨slot, hslot, varying.step hs h hall⟩

/-- What holds of types while blocks of `S` are built. -/
structure Typed (l : Language) (S : BlockId → Prop) (e : Emission) : Prop where
  /-- An input that is enforced reads the varying of the output that feeds it. -/
  carried : ∀ (x : BlockId) (b : Block) (i : Nat) (p : InputSocket) (s : SocketRef), S x →
    e.graph.get? x = some b → b.inputs[i]? = some p → p.link = some s → p.enforced = true →
    ReadsVarying l e s p.symbol
  checked : e.ledger.customErrors = [] → ∀ q ∈ e.calls, TypeChecked l e q

namespace Typed

theorem start (hcalls : e.calls = []) (plain : Unrouted S e) : Typed l S e where
  carried x b i p s hx hb hp _ enforced := by
    rw [plain x b hx hb p (List.mem_of_getElem? hp)] at enforced
    cases enforced
  checked _ q hq := by
    rw [hcalls] at hq
    cases hq

/-- A call checks the inputs that read their outputs directly. -/
theorem checked_last (sub : ∀ x, T x → S x) (hsched : Scheduled g l stage T e)
    (h : Typed l S e) (hstep : Step l stage T e e') {id : BlockId} {brought : List Slot}
    {b b' : Block} {made : BuildCall} (calling : Calling l stage T id brought e e' b b' made)
    (clean : e'.ledger.customErrors = []) : TypeChecked l e' made := by
  intro c i p s hc hp hl
  obtain rfl := calling.eq_of_get? (calling.made_block ▸ hc)
  rw [calling.inputs] at hp
  cases enforced : p.enforced with
  | false =>
    rw [Graph.outputType_of_outlines calling.outlines]
    exact .inl (calling.accepted clean i p s hp hl enforced)
  | true =>
    obtain ⟨slot, hslot, -, hsymbol⟩ := calling.slots i p hp
    rw [readSymbol, if_pos enforced] at hsymbol
    have varying := h.carried id b i p s (sub id calling.member) calling.before hp hl enforced
    rw [← hsymbol] at varying
    exact .inr ⟨slot, hslot, varying.step hsched.steady hstep hsched.settled⟩

theorem step (sub : ∀ x, T x → S x) (hsched : Scheduled g l stage T e)
    (h : Typed l S e) (hstep : Step l stage T e e') : Typed l S e' where
  carried x b' i p' s hx hb' hp' hl' enforced := by
    have hs := hsched.steady
    obtain ⟨b, hb, -, -⟩ := hstep.advances_back hs hb'
    rcases hstep.socket hs hb hb' hp' with
      same | ⟨source, _, -, -, hlink, -, -, hbuilt, -, hsymbol, hvarying⟩
    · exact (h.carried x b i p' s hx hb same hl' enforced).step hs hstep hsched.settled
    · cases hl'.symm.trans hlink
      obtain ⟨q, hq, hqs, -⟩ := hsched.built s.block hbuilt
      have settled := hstep.symbolAt hs hsched.settled ⟨q, hq, hqs⟩
      refine ⟨⟨q, hstep.calls_subset hs hq, hqs⟩, ?_, ?_⟩
      · rw [settled]
        exact hsymbol
      · rw [settled]
        exact hvarying
  checked clean q hq := by
    have hs := hsched.steady
    have clean' : e.ledger.customErrors = [] :=
      List.subset_nil.mp (clean ▸ (hstep.gains hs).customErrors)
    rcases hstep.mem_calls hs hq with hq | ⟨_, _, _, calling⟩
    · exact (h.checked clean' q hq).step hs hstep hsched.settled
    · exact h.checked_last sub hsched hstep calling clean

theorem steps (sub : ∀ x, T x → S x)
    (closed : ∀ x y, T x → g.Upstream x y → T y) (hsched : Scheduled g l stage T e)
    (h : Typed l S e) (hsteps : Steps l stage T e e') :
    Scheduled g l stage T e' ∧ Typed l S e' :=
  Steps.lasts (P := fun e => Scheduled g l stage T e ∧ Typed l S e)
    (fun _ _ _ hstep h => ⟨h.1.step closed hstep, h.2.step sub h.1 hstep⟩)
    hsched.steady hsteps ⟨hsched, h⟩

end Typed

theorem run_typed (hs : Ongoing g l e) (hcalls : e.calls = [])
    (hbuilt : e.built = []) {vertexNodes fragmentNodes : List BlockId}
    (subV : ∀ x ∈ g.gather vertexNodes, S x) (subF : ∀ x ∈ g.gather fragmentNodes, S x)
    (plain : Unrouted S e) (h : e.run vertexNodes fragmentNodes = .ok e') :
    Scheduled g l .fragment (fun x => x ∈ g.gather fragmentNodes) e' ∧ Typed l S e' := by
  obtain ⟨e₁, steps₁, steps₂, -⟩ := run_steps hs h
  obtain ⟨vertex, typed⟩ := Typed.steps subV (hs.outset.closed_gather vertexNodes)
    (Scheduled.start hs hcalls hbuilt) (Typed.start hcalls plain) steps₁
  have reopened := vertex.reopen fragmentNodes
  rw [Graph.gather_of_outlines vertex.steady.outlines] at reopened
  exact Typed.steps subF (hs.outset.closed_gather fragmentNodes) reopened
    ⟨typed.carried, typed.checked⟩ steps₂

end Emission

/-! ## 3. Builds without problems -/

namespace Material

variable {m m' : Material} {c : CompiledGraph}

/-- After a build without problems, every input of a block that was called accepts the type of the
output that feeds it, or the call has read this output through its varying. -/
theorem build_types_checked (hm : m.Reachable) (h : m.build = (.ok c, m'))
    (clean : c.errors = []) :
    ∃ e, m.emission = .ok e ∧ m'.graph = e.graph ∧ ∀ call ∈ e.calls,
      ∃ b, m'.graph.get? call.block = some b ∧
        ∀ (i : Nat) (p : InputSocket) (s : SocketRef), b.inputs[i]? = some p → p.link = some s →
          p.spec.accepts (m'.graph.outputType s) = true ∨
            ∃ slot, call.inputs[i]? = some slot ∧
              slot.symbol = c.language.varyingRef .fragment ("v_" ++ m'.graph.symbolAt s) ∧
              ∃ v ∈ c.varyings, v.name = "v_" ++ m'.graph.symbolAt s := by
  obtain ⟨hfault, e, he, hc, hgraph⟩ := build_eq_ok h
  have hw := hm.wellFormed
  obtain ⟨S, hscope⟩ := exists_scope hw.graph hfault
  obtain ⟨vertexNodes, fragmentNodes⟩ := hscope.gathered hw.modest
  obtain ⟨scheduled, typed⟩ := Emission.run_typed (steady_unwritten hw.graph) rfl
    rfl vertexNodes fragmentNodes (fun x b hx hb => hscope.plain x hx b hb) he
  obtain ⟨-, -, -, language, varyings, errors⟩ := finish_eq_ok hc
  have custom : e.ledger.customErrors = [] := by
    rw [errors, Ledger.errors] at clean
    exact (List.append_eq_nil_iff.mp clean).2
  rw [hgraph]
  refine ⟨e, he, rfl, fun call hcall => ?_⟩
  have known := scheduled.known call hcall
  rw [← Graph.ids_of_outlines scheduled.steady.outlines, Graph.mem_ids_iff] at known
  obtain ⟨b, hb⟩ := known
  refine ⟨b, hb, fun i p s hp hl => ?_⟩
  rcases typed.checked custom call hcall b i p s hb hp hl with
    accepts | ⟨slot, hslot, -, hsymbol, hvarying⟩
  · exact .inl accepts
  · obtain ⟨v, hv, hname⟩ := List.any_eq_true.mp hvarying
    refine .inr ⟨slot, hslot, ?_, v, varyings ▸ hv, beq_iff_eq.mp hname⟩
    rw [hsymbol, language]
    rfl

def unstretched : Material :=
  let start : Material := { name := "stretched" }
  { (((start.addBlock "position" (.input (.ofAttribute "position" .vector3))).addBlock "double"
      (.math .add)).addBlock "vertex" .vertexOutput).addBlock "fragment" (.fragmentOutput {}) with
    roots := ⟨[⟨3⟩], [⟨4⟩]⟩ }

def doubled : Graph :=
  (unstretched.graph.link ⟨⟨1⟩, 0⟩ ⟨⟨2⟩, 0⟩).link ⟨⟨1⟩, 0⟩ ⟨⟨2⟩, 1⟩

/-- A position that is read as a color with alpha. -/
def stretched : Material :=
  { unstretched with graph := (doubled.link ⟨⟨2⟩, 0⟩ ⟨⟨3⟩, 0⟩).link ⟨⟨2⟩, 0⟩ ⟨⟨4⟩, 0⟩ }

theorem reachable_stretched : stretched.Reachable := by
  have blocks : ({ unstretched with roots := {} } : Material).Reachable :=
    .addBlock "fragment" (.fragmentOutput {}) (.addBlock "vertex" .vertexOutput
      (.addBlock "double" (.math .add) (.addBlock "position" (.input
        (.ofAttribute "position" .vector3)) (.new "stretched" {} 1) nofun) nofun) nofun) nofun
  have rooted : unstretched.Reachable :=
    .addRoot (.addRoot blocks
      (show addRoot _ ⟨3⟩ = .ok { unstretched with roots := ⟨[⟨3⟩], []⟩ } from rfl))
      (show addRoot _ ⟨4⟩ = .ok unstretched from rfl)
  exact rooted.connectAll [(⟨⟨1⟩, 0⟩, ⟨⟨2⟩, 0⟩), (⟨⟨1⟩, 0⟩, ⟨⟨2⟩, 1⟩), (⟨⟨2⟩, 0⟩, ⟨⟨3⟩, 0⟩),
    (⟨⟨2⟩, 0⟩, ⟨⟨4⟩, 0⟩)] stretched.graph (by cbv)

theorem stretched_types_checked :
    stretched.Reachable ∧ ∃ c m', stretched.build = (.ok c, m') ∧ c.errors = [] ∧
      ∃ e, stretched.emission = .ok e ∧ m'.graph = e.graph ∧ ∀ call ∈ e.calls,
        ∃ b, m'.graph.get? call.block = some b ∧
          ∀ (i : Nat) (p : InputSocket) (s : SocketRef), b.inputs[i]? = some p → p.link = some s →
            p.spec.accepts (m'.graph.outputType s) = true ∨
              ∃ slot, call.inputs[i]? = some slot ∧
                slot.symbol = c.language.varyingRef .fragment ("v_" ++ m'.graph.symbolAt s) ∧
                ∃ v ∈ c.varyings, v.name = "v_" ++ m'.graph.symbolAt s := by
  obtain ⟨c, m', h, clean⟩ := exists_build (m := stretched) (by decide +kernel)
  exact ⟨reachable_stretched, c, m', h, clean, build_types_checked reachable_stretched h clean⟩

/-- A build without problems may leave an input that does not accept the type of what feeds it: the
fragment stage reads a vector of three components as a color with alpha, through a varying. -/
theorem stretched_type_unchecked :
    stretched.Reachable ∧ ∃ c m', stretched.build = (.ok c, m') ∧ c.errors = [] ∧
      ∃ e, stretched.emission = .ok e ∧ m'.graph = e.graph ∧ ∃ call ∈ e.calls,
        ∃ b p s, m'.graph.get? call.block = some b ∧ b.inputs[0]? = some p ∧ p.link = some s ∧
          p.spec.accepts (m'.graph.outputType s) = false := by
  obtain ⟨c, m', h, clean⟩ := exists_build (m := stretched) (by decide +kernel)
  obtain ⟨-, e, he, -, hgraph⟩ := build_eq_ok h
  have found : stretched.emission.toOption.any (fun e => e.calls.any fun call =>
      (e.graph.get? call.block).any fun b => b.inputs[0]?.any fun p => p.link.any fun s =>
        !p.spec.accepts (e.graph.outputType s)) = true := by
    decide +kernel
  rw [he] at found
  obtain ⟨call, hcall, found⟩ := List.any_eq_true.mp found
  obtain ⟨b, hb, found⟩ := (Option.any_eq_true _ _).mp found
  obtain ⟨p, hp, found⟩ := (Option.any_eq_true _ _).mp found
  obtain ⟨s, hs, found⟩ := (Option.any_eq_true _ _).mp found
  rw [← hgraph] at hb found
  exact ⟨reachable_stretched, c, m', h, clean, e, he, hgraph, call, hcall, b, p, s, hb, hp, hs,
    (Bool.not_eq_true' _).mp found⟩

end Material

end ShaderGraph
