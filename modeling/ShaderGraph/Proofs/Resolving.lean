import ShaderGraph.Proofs.Bounds
import ShaderGraph.Proofs.Walks

/-!
# Types are found, and are actual types

A type may have to be looked for several blocks away, so the search is bounded. The rules of the
search say nothing of a bound (`Graph.Resolves`): a derivation is a search that came to an end. In a
graph where no block feeds itself, every socket that one may ask for has a derivation of exactly one
type, the one that the bounded search returns, and this type is never one that stands for another
(`Graph.types_resolve`).
-/

namespace ShaderGraph

variable {t : ValueType} {types : List ValueType}

open Relation (TransGen ReflTransGen)

/-- The two sides of a block that have sockets. -/
inductive Side where
  | input
  | output

/-- What an output that follows the inputs of its block makes of their types. -/
def Kind.followed (k : Kind) (output : SocketSpec) (types : List ValueType) : ValueType :=
  (k.resolveOutput types).getD ((output.typeSource.bind fun i => types[i]?).getD .float)

/-- The rules by which the type at a socket is found. Where a rule asks for other types, it asks for
all of them. -/
inductive Graph.Resolves (g : Graph) : Side → SocketRef → ValueType → Prop where
  | noOutput {r : SocketRef} (missing : g.output? r = none) : Resolves g .output r .float
  | declared {r : SocketRef} {output : OutputSocket} (found : g.output? r = some output)
    (concrete : output.spec.type.isConcrete = true) : Resolves g .output r output.spec.type
  | undetected {r : SocketRef} {output : OutputSocket} (found : g.output? r = some output)
    (auto : output.spec.type = .autoDetect) : Resolves g .output r .float
  /-- The exit of a teleport has the type that its entry sees. -/
  | teleported {r : SocketRef} {output : OutputSocket} {entry : BlockId} {t : ValueType}
    (found : g.output? r = some output) (follows : output.spec.type = .basedOnInput)
    (origin : g.origin? r.block = some entry) (seen : Resolves g .input ⟨entry, 0⟩ t) :
    Resolves g .output r t
  | followed {r : SocketRef} {b : Block} {output : OutputSocket} {types : List ValueType}
    (block : g.get? r.block = some b) (found : b.outputs[r.index]? = some output)
    (follows : output.spec.type = .basedOnInput) (origin : b.kind.teleportEntry = none)
    (all : types.length = b.inputs.length)
    (seen : ∀ i t, types[i]? = some t → Resolves g .input ⟨r.block, i⟩ t) :
    Resolves g .output r (b.kind.followed output.spec types)
  | noInput {r : SocketRef} (missing : g.input? r = none) : Resolves g .input r .float
  | linked {r s : SocketRef} {t : ValueType} (source : g.source? r = some s)
    (produced : Resolves g .output s t) : Resolves g .input r t
  | free {r : SocketRef} {input : InputSocket} (found : g.input? r = some input)
    (unlinked : input.link = none) (concrete : input.spec.type.isConcrete = true) :
    Resolves g .input r input.spec.type
  | undecided {r : SocketRef} {input : InputSocket} (found : g.input? r = some input)
    (unlinked : input.link = none) (vague : input.spec.type.isConcrete = false) :
    Resolves g .input r .float

/-! ## 1. What is found is an actual type -/

theorem ValueType.isConcrete_iff : t.isConcrete = true ↔ t ≠ .autoDetect ∧ t ≠ .basedOnInput := by
  cases t <;> decide

theorem ValueType.isConcrete_wider {t' : ValueType} (h : t.isConcrete = true)
    (h' : t'.isConcrete = true) : (t.wider t').isConcrete = true := by
  unfold wider
  split
  · exact h'
  · split
    · exact h'
    · exact h

theorem Kind.isConcrete_of_resolveOutput {k : Kind} (h : k.resolveOutput types = some t)
    (concrete : ∀ t ∈ types, t.isConcrete = true) : t.isConcrete = true := by
  unfold resolveOutput at h
  split at h
  · cases h
    exact ValueType.isConcrete_wider (concrete _ (by simp)) (concrete _ (by simp))
  · cases h
    exact ValueType.isConcrete_wider (concrete _ (by simp)) (concrete _ (by simp))
  · cases h

theorem Kind.isConcrete_followed (k : Kind) (output : SocketSpec)
    (concrete : ∀ t ∈ types, t.isConcrete = true) :
    (k.followed output types).isConcrete = true := by
  unfold followed
  cases hk : k.resolveOutput types with
  | some t => exact isConcrete_of_resolveOutput hk concrete
  | none =>
    cases hi : output.typeSource.bind fun i => types[i]? with
    | none => rfl
    | some t =>
      obtain ⟨i, -, ht⟩ := Option.bind_eq_some_iff.mp hi
      exact concrete t (List.mem_of_getElem? ht)

namespace Graph

variable {g : Graph} {r s : SocketRef} {t : ValueType} {side : Side}

theorem Resolves.isConcrete (h : g.Resolves side r t) : t.isConcrete = true := by
  induction h with
  | noOutput | undetected | noInput | undecided => rfl
  | declared _ concrete | free _ _ concrete => exact concrete
  | teleported _ _ _ _ ih | linked _ _ ih => exact ih
  | followed _ _ _ _ _ _ ih =>
    refine Kind.isConcrete_followed _ _ fun t ht => ?_
    obtain ⟨i, hi⟩ := List.getElem?_of_mem ht
    exact ih i t hi

/-! ## 2. The search follows the rules -/

section Equations

variable {next : SocketRef → ValueType} {b : Block} {input : InputSocket} {output : OutputSocket}

theorem typeBy_of_missing (missing : g.output? r = none) : g.typeBy next r = .float := by
  unfold typeBy
  cases hb : g.get? r.block with
  | none => rfl
  | some b =>
    rw [output?, hb, Option.bind_some] at missing
    simp only [missing]

theorem typeBy_of_declared (found : g.output? r = some output)
    (concrete : output.spec.type.isConcrete = true) : g.typeBy next r = output.spec.type := by
  obtain ⟨b, hb, ho⟩ := output?_eq_some_iff.mp found
  simp only [typeBy, hb, ho]
  cases ht : output.spec.type with
  | autoDetect | basedOnInput => rw [ht] at concrete; cases concrete
  | _ => rfl

theorem typeBy_of_undetected (found : g.output? r = some output)
    (auto : output.spec.type = .autoDetect) : g.typeBy next r = .float := by
  obtain ⟨b, hb, ho⟩ := output?_eq_some_iff.mp found
  simp only [typeBy, hb, ho, auto]

theorem typeBy_of_teleported {entry : BlockId} (found : g.output? r = some output)
    (follows : output.spec.type = .basedOnInput) (origin : g.origin? r.block = some entry) :
    g.typeBy next r = g.inputTypeBy next ⟨entry, 0⟩ := by
  obtain ⟨b, hb, ho⟩ := output?_eq_some_iff.mp found
  obtain ⟨b', hb', he⟩ := origin?_eq_some_iff.mp origin
  cases hb.symm.trans hb'
  simp only [typeBy, hb, ho, follows, he]

theorem typeBy_of_followed (hb : g.get? r.block = some b) (ho : b.outputs[r.index]? = some output)
    (follows : output.spec.type = .basedOnInput) (origin : b.kind.teleportEntry = none) :
    g.typeBy next r = b.kind.followed output.spec
      ((List.range b.inputs.length).map fun i => g.inputTypeBy next ⟨r.block, i⟩) := by
  simp only [typeBy, hb, ho, follows, origin, Kind.followed]
  cases b.kind.resolveOutput _ <;> rfl

theorem inputTypeBy_of_missing (missing : g.input? r = none) : g.inputTypeBy next r = .float := by
  rw [input?] at missing
  rw [inputTypeBy, missing]

theorem inputTypeBy_of_linked (source : g.source? r = some s) : g.inputTypeBy next r = next s := by
  obtain ⟨input, found, hlink⟩ := source?_eq_some_iff.mp source
  rw [input?] at found
  simp only [inputTypeBy, found, hlink]

theorem inputTypeBy_of_free (found : g.input? r = some input) (unlinked : input.link = none) :
    g.inputTypeBy next r = if input.spec.type.isConcrete then input.spec.type else .float := by
  rw [input?] at found
  simp only [inputTypeBy, found, unlinked]

end Equations

def typeAt (g : Graph) : Side → SocketRef → ValueType
  | .input => g.inputType
  | .output => g.outputType

/-- Past the depth of a block, one more step finds the same type. -/
theorem outputTypeWithin_add_one (hc : g.Coherent) (hg : g.Acyclic) {steps : Nat}
    (enough : g.depth r.block < steps) :
    g.outputTypeWithin (steps + 1) r = g.outputTypeWithin steps r := by
  rw [← iterate_typeBy hc hg (enough.trans steps.lt_succ_self) fun _ => .float,
    Function.iterate_succ_apply, iterate_typeBy hc hg enough]

/-- The type of an output follows from the types behind its block: the bound is out of sight. -/
theorem outputType_eq (hc : g.Coherent) (hg : g.Acyclic) (r : SocketRef) :
    g.outputType r = g.typeBy g.outputType r := by
  by_cases hr : r.block ∈ g.ids
  · have enough := depth_lt_length hg hr
    obtain ⟨steps, hsteps⟩ := Nat.exists_eq_succ_of_ne_zero (Nat.ne_zero_of_lt enough)
    unfold outputType
    rw [hsteps, outputTypeWithin_succ]
    refine typeBy_congr fun s hs => (outputTypeWithin_add_one hc hg ?_).symm
    have := depth_lt_of_transGen hc hg hs
    omega
  · have missing : g.output? r = none := by
      rw [output?, get?_eq_none_iff.mpr hr, Option.bind_none]
    rw [typeBy_of_missing missing, outputType]
    cases g.blocks.length with
    | zero => rfl
    | succ steps => rw [outputTypeWithin_succ, typeBy_of_missing missing]

/-- A derivation yields what the search returns, so the rules yield at most one type. -/
theorem Resolves.eq_typeAt (hc : g.Coherent) (hg : g.Acyclic) (h : g.Resolves side r t) :
    t = g.typeAt side r := by
  induction h with
  | noOutput missing => rw [typeAt, outputType_eq hc hg, typeBy_of_missing missing]
  | declared found concrete =>
    rw [typeAt, outputType_eq hc hg, typeBy_of_declared found concrete]
  | undetected found auto => rw [typeAt, outputType_eq hc hg, typeBy_of_undetected found auto]
  | teleported found follows origin _ ih =>
    rw [typeAt, outputType_eq hc hg, typeBy_of_teleported found follows origin]
    exact ih
  | @followed r b output types hb ho follows origin all _ ih =>
    rw [typeAt, outputType_eq hc hg, typeBy_of_followed hb ho follows origin]
    congr 1
    refine List.ext_getElem (by simpa using all) fun i hi _ => ?_
    rw [List.getElem_map, List.getElem_range]
    exact ih i _ (List.getElem?_eq_getElem hi)
  | noInput missing => exact (inputTypeBy_of_missing missing).symm
  | linked source _ ih => exact ih.trans (inputTypeBy_of_linked source).symm
  | free found unlinked concrete =>
    exact (inputTypeBy_of_free found unlinked |>.trans (if_pos concrete)).symm
  | undecided found unlinked vague =>
    exact (inputTypeBy_of_free found unlinked |>.trans (if_neg (by simp [vague]))).symm

/-! ## 3. The search comes to an end -/

theorem resolves_inputType (h : ∀ s, g.source? r = some s → g.Resolves .output s (g.outputType s)) :
    g.Resolves .input r (g.inputType r) := by
  unfold inputType
  cases hr : g.input? r with
  | none =>
    rw [inputTypeBy_of_missing hr]
    exact .noInput hr
  | some input =>
    cases hl : input.link with
    | some s =>
      have source : g.source? r = some s := source?_eq_some_iff.mpr ⟨input, hr, hl⟩
      rw [inputTypeBy_of_linked source]
      exact .linked source (h s source)
    | none =>
      rw [inputTypeBy_of_free hr hl]
      split
      · rename_i concrete
        exact .free hr hl concrete
      · rename_i vague
        exact .undecided hr hl (Bool.eq_false_iff.mpr vague)

theorem resolves_outputType (hc : g.Coherent) (hg : g.Acyclic) (r : SocketRef) :
    g.Resolves .output r (g.outputType r) := by
  -- by how many blocks are behind: whatever is asked for next belongs to a block with fewer
  induction hn : g.depth r.block using Nat.strong_induction_on generalizing r with
  | _ n ih =>
  subst hn
  have seen : ∀ p : SocketRef, ReflTransGen g.Upstream r.block p.block →
      g.Resolves .input p (g.inputType p) := by
    intro p path
    refine resolves_inputType fun s source => ih _ ?_ s rfl
    exact depth_lt_of_transGen hc hg (.tail' path (upstream_of_source? source))
  rw [outputType_eq hc hg]
  cases found : g.output? r with
  | none =>
    rw [typeBy_of_missing found]
    exact .noOutput found
  | some output =>
    by_cases concrete : output.spec.type.isConcrete = true
    · rw [typeBy_of_declared found concrete]
      exact .declared found concrete
    obtain auto | follows : output.spec.type = .autoDetect ∨ output.spec.type = .basedOnInput := by
      rw [ValueType.isConcrete_iff] at concrete
      tauto
    · rw [typeBy_of_undetected found auto]
      exact .undetected found auto
    obtain ⟨b, hb, ho⟩ := output?_eq_some_iff.mp found
    cases he : b.kind.teleportEntry with
    | some entry =>
      have origin : g.origin? r.block = some entry := origin?_eq_some_iff.mpr ⟨b, hb, he⟩
      rw [typeBy_of_teleported found follows origin]
      refine .teleported found follows origin ?_
      by_cases there : entry ∈ g.ids
      · exact seen _ (.single (.inr ⟨origin, there⟩))
      · refine resolves_inputType fun s source => absurd ?_ there
        exact (upstream_of_source? source).mem_ids
    | none =>
      rw [typeBy_of_followed hb ho follows he]
      refine .followed hb ho follows he (by simp) fun i t hi => ?_
      obtain ⟨_, rfl⟩ := List.getElem?_eq_some_iff.mp hi
      rw [List.getElem_map, List.getElem_range]
      exact seen _ .refl

theorem resolves_typeAt (hc : g.Coherent) (hg : g.Acyclic) (side : Side) (r : SocketRef) :
    g.Resolves side r (g.typeAt side r) := by
  cases side with
  | input => exact resolves_inputType fun s _ => resolves_outputType hc hg s
  | output => exact resolves_outputType hc hg r

/-- At every socket, there or not, the search for a type comes to an end, and what it returns is
neither a type that is still to be detected nor one that follows another. -/
theorem types_resolve (hg : g.Reachable) (side : Side) (r : SocketRef) :
    (∀ t, g.Resolves side r t ↔ t = g.typeAt side r) ∧ g.typeAt side r ≠ .autoDetect ∧
      g.typeAt side r ≠ .basedOnInput := by
  have ends := resolves_typeAt hg.coherent hg.acyclic side r
  refine ⟨fun t => ⟨Resolves.eq_typeAt hg.coherent hg.acyclic, ?_⟩,
    ValueType.isConcrete_iff.mp ends.isConcrete⟩
  rintro rfl
  exact ends

/-- The sum of what the exit of a teleport carries, and the input of a block that is not there. -/
theorem relay_types_resolve :
    let g := Material.relay.graph
    g.Reachable ∧ (∀ t, g.Resolves .output ⟨⟨4⟩, 0⟩ t ↔ t = .float) ∧
      (∀ t, g.Resolves .input ⟨⟨9⟩, 3⟩ t ↔ t = .float) := by
  intro g
  have reachable : g.Reachable := .held Material.crafted_relay.reachable
  have sum : g.typeAt .output ⟨⟨4⟩, 0⟩ = .float := by cbv
  have nowhere : g.typeAt .input ⟨⟨9⟩, 3⟩ = .float := by cbv
  exact ⟨reachable, sum ▸ (types_resolve reachable .output ⟨⟨4⟩, 0⟩).1,
    nowhere ▸ (types_resolve reachable .input ⟨⟨9⟩, 3⟩).1⟩

end Graph

end ShaderGraph
