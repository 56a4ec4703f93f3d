import ShaderGraph.Proofs.Naming
import ShaderGraph.Proofs.Texts

/-!
# What a part of a build can do

While code is written, drafts and the ledger only grow: text that stands in a draft stays there,
declarations and problems are added and never taken away, and the one varying that a block adds by
itself is the distance of the fog.

* `Manner` says what a part of a build keeps to, and `Site.Grows` what it may have changed.
* `Emit.Code` says which steps a part is made of. What every step keeps, the part keeps.
* `Emit.Code.grows`: a part keeps to its manner, also when it fails.
-/

namespace ShaderGraph

open List

variable {α : Type}

/-! ## 1. Growth -/

/-- The text outside open regions is only added to, whatever the defines and the fills are. -/
def CodeBuffer.Grows (b b' : CodeBuffer) : Prop :=
  ∀ defines fills, ∃ more,
    Segment.renders defines fills b'.root = Segment.renders defines fills b.root ++ more

namespace CodeBuffer.Grows

variable {a b c : CodeBuffer}

theorem refl (b : CodeBuffer) : b.Grows b := fun _ _ => ⟨"", (String.append_empty).symm⟩

theorem trans (hab : a.Grows b) (hbc : b.Grows c) : a.Grows c := by
  intro defines fills
  obtain ⟨s, hs⟩ := hab defines fills
  obtain ⟨t, ht⟩ := hbc defines fills
  exact ⟨s ++ t, by rw [ht, hs, String.append_assoc]⟩

theorem modifyCurrent (b : CodeBuffer) {f : List Segment → List Segment}
    (adds : ∀ defines fills xs, ∃ more,
      Segment.renders defines fills (f xs) = Segment.renders defines fills xs ++ more) :
    b.Grows (b.modifyCurrent f) := by
  intro defines fills
  unfold CodeBuffer.modifyCurrent
  split
  · exact adds defines fills b.root
  · split <;> exact refl b defines fills

theorem pushText (b : CodeBuffer) (s : String) : b.Grows (b.pushText s) :=
  modifyCurrent b fun defines fills xs => ⟨s, Segment.renders_pushText defines fills s xs⟩

theorem pushSegment (b : CodeBuffer) (s : Segment) : b.Grows (b.pushSegment s) :=
  modifyCurrent b fun defines fills xs =>
    ⟨Segment.renders defines fills [s], Segment.renders_append defines fills xs [s]⟩

theorem beginElse (h : a.beginElse = .ok b) : a.Grows b := by
  unfold CodeBuffer.beginElse at h
  split at h
  · cases h
  · split at h
    · cases h
    · cases h
      exact refl a

theorem endIf (h : a.endIf = .ok b) : a.Grows b := by
  unfold CodeBuffer.endIf at h
  split at h
  · cases h
  · cases h
    exact trans (refl a) (pushSegment _ _)

end CodeBuffer.Grows

/-- Declarations after more were added behind them, under names that were free. -/
structure Appends {α : Type} (nameOf : α → String) (decls decls' : List α) : Prop where
  ahead : decls <+: decls'
  distinct : (decls.map nameOf).Nodup → (decls'.map nameOf).Nodup

namespace Appends

variable {α : Type} {nameOf : α → String} {a b c : List α}

theorem refl (decls : List α) : Appends nameOf decls decls := ⟨prefix_rfl, fun h => h⟩

theorem trans (hab : Appends nameOf a b) (hbc : Appends nameOf b c) : Appends nameOf a c :=
  ⟨hab.ahead.trans hbc.ahead, fun h => hbc.distinct (hab.distinct h)⟩

theorem subset (h : Appends nameOf a b) : a ⊆ b := h.ahead.subset

theorem declare (nameOf : α → String) (decl : α) (decls : List α) :
    Appends nameOf decls (declare nameOf decl decls) where
  ahead := by
    unfold ShaderGraph.declare
    split
    · exact prefix_rfl
    · exact prefix_append _ _
  distinct := nodup_declare nameOf decl decls

theorem foldl_declare (nameOf : α → String) (more decls : List α) :
    Appends nameOf decls (more.foldl (fun ds d => ShaderGraph.declare nameOf d ds) decls) := by
  induction more generalizing decls with
  | nil => exact .refl _
  | cons d more ih => exact (declare nameOf d decls).trans (ih _)

end Appends

theorem mem_declare {nameOf : α → String} {decl x : α} {decls : List α}
    (h : x ∈ declare nameOf decl decls) : x ∈ decls ∨ x = decl := by
  unfold declare at h
  split at h
  · exact .inl h
  · simpa using h

/-- A name that is declared is there afterwards, by this declaration or by an earlier one. -/
theorem exists_mem_declare (nameOf : α → String) (decl : α) (decls : List α) :
    ∃ d ∈ declare nameOf decl decls, nameOf d = nameOf decl := by
  unfold declare
  split
  · rename_i found
    obtain ⟨d, hd, hname⟩ := any_eq_true.mp found
    exact ⟨d, hd, by simpa using hname⟩
  · exact ⟨decl, mem_append_right _ mem_cons_self, rfl⟩

theorem subset_pushNew [DecidableEq α] (x : α) (xs : List α) : xs ⊆ pushNew x xs := by
  unfold pushNew
  split
  · exact Subset.refl _
  · exact subset_append_left _ _

/-- Every constant of a draft is written the way its language declares constants. -/
def StageDraft.Worded (d : StageDraft) : Prop :=
  ∀ c ∈ d.constants, ∃ type literal, c.text = d.language.declareConst c.name type literal

/-- A draft after more was written to it. -/
structure StageDraft.Grows (d d' : StageDraft) : Prop where
  stage : d'.stage = d.stage
  language : d'.language = d.language
  uniforms : Appends UniformDecl.name d.uniforms d'.uniforms
  constants : Appends NamedText.name d.constants d'.constants
  worded : d.Worded → d'.Worded
  code : d.code.Grows d'.code

namespace StageDraft.Grows

variable {a b c : StageDraft} (d : StageDraft) (name : String) (type : ValueType)

theorem refl : d.Grows d :=
  ⟨rfl, rfl, .refl _, .refl _, fun h => h, .refl _⟩

theorem trans (hab : a.Grows b) (hbc : b.Grows c) : a.Grows c where
  stage := hbc.stage.trans hab.stage
  language := hbc.language.trans hab.language
  uniforms := hab.uniforms.trans hbc.uniforms
  constants := hab.constants.trans hbc.constants
  worded h := hbc.worded (hab.worded h)
  code := hab.code.trans hbc.code

theorem of_code {code : CodeBuffer} (h : d.code.Grows code) : d.Grows { d with code } :=
  { refl d with code := h }

theorem push (s : String) : d.Grows (d.push s) := of_code d (.pushText _ s)

theorem comment (text : String) : d.Grows (d.comment text) := by
  unfold StageDraft.comment
  split
  · exact push d _
  · exact refl d

theorem addUniform : d.Grows (d.addUniform name type) :=
  { refl d with uniforms := .declare _ _ _ }

theorem addConstant (literal : String) : d.Grows (d.addConstant name type literal) where
  stage := rfl
  language := rfl
  uniforms := .refl _
  constants := .declare _ _ _
  worded h c hc := by
    rcases mem_declare hc with hold | rfl
    · exact h c hold
    · exact ⟨type, literal, rfl⟩
  code := .refl _

theorem addAttribute (decl : AttributeDecl) : d.Grows (d.addAttribute decl) :=
  { refl d with }

theorem addSampler : d.Grows (d.addSampler name) :=
  { refl d with }

theorem addFunction (code : String) : d.Grows (d.addFunction name code) :=
  { refl d with }

end StageDraft.Grows

/-- The number in the next name for a define that is wished for. -/
def NameTable.number (t : NameTable) (wish : String) : Nat := (Keyed.get? wish t.defines).getD 0

theorem NameTable.number_freshDefine (t : NameTable) (wish other : String) :
    (t.freshDefine wish).2.number other =
      if wish = other then t.number wish + 1 else t.number other := by
  unfold number freshDefine
  rw [Keyed.get?_insert]
  split <;> rfl

theorem NameTable.number_le_serve (requests : List NameRequest) (t : NameTable) (wish : String) :
    t.number wish ≤ (serve requests t).2.number wish := by
  induction requests generalizing t with
  | nil => exact Nat.le_refl _
  | cons r rest ih =>
    refine Nat.le_trans ?_ (ih (t.answer r).2)
    cases r with
    | define other =>
      refine Nat.le_trans ?_ (Nat.le_of_eq (t.number_freshDefine other wish).symm)
      split
      · rename_i same
        exact same ▸ Nat.le_succ _
      · exact Nat.le_refl _
    | allot other =>
      unfold answer freshVariable
      dsimp only
      split <;> rfl
    | exclude other =>
      unfold answer exclude
      dsimp only
      split <;> rfl

/-- The ledger after a block wrote to it. -/
structure Ledger.Grows (l l' : Ledger) : Prop where
  unconnected : l'.unconnected = l.unconnected
  customErrors : l.customErrors ⊆ l'.customErrors
  remarks : ∀ text ∈ l'.customErrors, text ∈ l.customErrors ∨ Remark text
  /-- The distance of the fog is the one varying that a block adds. -/
  varyings : ∃ more, l'.varyings = l.varyings ++ more ∧
    ∀ v ∈ more, v.name = FogBlock.distanceVarying
  /-- The names are those after some requests, of which none excludes a name. -/
  names : ∃ requests, (∀ name, .exclude name ∉ requests) ∧
    (NameTable.serve requests l.names).2 = l'.names

namespace Ledger.Grows

variable {a b c : Ledger} (l : Ledger) (wish : String)

theorem of_eq (hu : b.unconnected = a.unconnected) (hc : b.customErrors = a.customErrors)
    (hv : b.varyings = a.varyings) (hn : b.names = a.names) : a.Grows b where
  unconnected := hu
  customErrors := by rw [hc]; exact Subset.refl _
  remarks _ h := .inl (hc ▸ h)
  varyings := ⟨[], by rw [hv, append_nil], fun _ h => nomatch h⟩
  names := ⟨[], fun _ => not_mem_nil, hn.symm⟩

theorem refl : l.Grows l := of_eq rfl rfl rfl rfl

theorem trans (hab : a.Grows b) (hbc : b.Grows c) : a.Grows c where
  unconnected := hbc.unconnected.trans hab.unconnected
  customErrors := Subset.trans hab.customErrors hbc.customErrors
  remarks text h := (hbc.remarks text h).elim (hab.remarks text) .inr
  varyings := by
    obtain ⟨v, hv, named⟩ := hab.varyings
    obtain ⟨w, hw, named'⟩ := hbc.varyings
    refine ⟨v ++ w, by rw [hw, hv, append_assoc], ?_⟩
    intro x hx
    rcases mem_append.mp hx with hx | hx
    · exact named x hx
    · exact named' x hx
  names := by
    obtain ⟨first, hands, hfirst⟩ := hab.names
    obtain ⟨second, hands', hsecond⟩ := hbc.names
    exact ⟨first ++ second, fun name h => (mem_append.mp h).elim (hands name) (hands' name),
      by rw [NameTable.serve_append, hfirst, hsecond]⟩

theorem addError {message : String} (h : Remark message) : l.Grows (l.addError message) :=
  { refl l with
    customErrors := subset_pushNew _ _
    remarks := fun text htext => by
      rcases mem_pushNew.mp htext with hold | rfl
      · exact .inl hold
      · exact .inr h }

theorem freshVariable : l.Grows (l.freshVariable wish).2 :=
  { refl l with names := ⟨[.allot wish], by simp, rfl⟩ }

theorem freshDefine : l.Grows (l.freshDefine wish).2 :=
  { refl l with names := ⟨[.define wish], by simp, rfl⟩ }

theorem addFogVarying (type : ValueType) :
    l.Grows (l.addVarying { name := FogBlock.distanceVarying, type }) where
  unconnected := rfl
  customErrors := Subset.refl _
  remarks _ := .inl
  varyings := by
    unfold Ledger.addVarying declare
    split
    · exact ⟨[], (append_nil _).symm, fun _ h => nomatch h⟩
    · exact ⟨[_], rfl, by simp⟩
  names := (refl l).names

/-- No number of a define is taken back. -/
theorem numbers (h : a.Grows b) (wish : String) : a.names.number wish ≤ b.names.number wish := by
  obtain ⟨requests, -, served⟩ := h.names
  exact served ▸ NameTable.number_le_serve requests _ wish

end Ledger.Grows

theorem Roster.mem_enter {r : Roster} {role : Role} {id : BlockId} {e : Role × BlockId}
    (h : e ∈ (r.enter role id).entries) : e ∈ r.entries ∨ e.2 = id := by
  unfold Roster.enter at h
  split at h
  · exact .inl h
  · rcases mem_append.mp h with h | h
    · exact .inl h
    · exact .inr (by rw [mem_singleton.mp h])

theorem Roster.subset_enter (r : Roster) (role : Role) (id : BlockId) :
    r.entries ⊆ (r.enter role id).entries := by
  unfold Roster.enter
  split
  · exact Subset.refl _
  · exact subset_append_left _ _

/-- The place of a block after the block entered itself for later phases, and no other one. -/
structure Site.Enters {κ : Type} (s s' : Site κ) : Prop where
  block : s'.block = s.block
  roster : ∀ e ∈ s'.ledger.roster.entries, e ∈ s.ledger.roster.entries ∨ e.2 = s.block
  kept : s.ledger.roster.entries ⊆ s'.ledger.roster.entries

namespace Site.Enters

variable {κ : Type} {a b c : Site κ}

theorem of_eq (hb : b.block = a.block) (hr : b.ledger.roster = a.ledger.roster) : a.Enters b :=
  ⟨hb, fun _ he => .inl (hr ▸ he), fun _ he => hr ▸ he⟩

theorem refl (s : Site κ) : s.Enters s := of_eq rfl rfl

theorem trans (hab : a.Enters b) (hbc : b.Enters c) : a.Enters c where
  block := hbc.block.trans hab.block
  roster e he := by
    rcases hbc.roster e he with he | he
    · exact hab.roster e he
    · exact .inr (he.trans hab.block)
  kept := Subset.trans hab.kept hbc.kept

theorem enter (s : Site κ) (role : Role) :
    s.Enters { s with ledger := s.ledger.enter role s.block } where
  block := rfl
  roster _ he := Roster.mem_enter he
  kept := Roster.subset_enter _ _ _

end Site.Enters

/-! ## 2. Operations on code -/

def assignment (target value : String) : String := target ++ " = " ++ value ++ ";\n"

/-- An operation on a code buffer. -/
inductive CodeOp where
  | push (text : String)
  /-- Pushes an assignment. -/
  | assign (target value : String)
  | anchor (id : Nat)
  | beginIf (condition : Condition)
  | beginElse
  | endIf

namespace CodeBuffer

variable {a b c : CodeBuffer}

def apply (b : CodeBuffer) : CodeOp → Except CodeError CodeBuffer
  | .push text => .ok (b.pushText text)
  | .assign target value => .ok (b.pushText (assignment target value))
  | .anchor id => .ok (b.pushAnchor id)
  | .beginIf condition => .ok (b.beginIf condition)
  | .beginElse => b.beginElse
  | .endIf => b.endIf

def applyAll (b : CodeBuffer) (ops : List CodeOp) : Except CodeError CodeBuffer :=
  ops.foldlM apply b

theorem applyAll_singleton (b : CodeBuffer) (op : CodeOp) : b.applyAll [op] = b.apply op := by
  unfold applyAll
  rw [foldlM_cons]
  cases b.apply op <;> rfl

theorem applyAll_append {ops more : List CodeOp} (h : a.applyAll ops = .ok b)
    (h' : b.applyAll more = .ok c) : a.applyAll (ops ++ more) = .ok c := by
  unfold applyAll at *
  rw [foldlM_append, h]
  exact h'

end CodeBuffer

namespace CodeOp

/-- The operation writes nothing that begins with a reference to a varying. -/
def Spares : CodeOp → Prop
  | .push text => ShaderGraph.Spares text
  | .assign target _ => ShaderGraph.Spares target
  | _ => True

def IsWhole : CodeOp → Prop
  | .push text => IsLine text
  | .assign target value => IsLine (assignment target value)
  | _ => True

/-- An operation that fills no varying, and that writes one line wherever `clean` holds. -/
def Neat (clean : Prop) (op : CodeOp) : Prop := op.Spares ∧ (clean → op.IsWhole)

end CodeOp

theorem CodeBuffer.Grows.apply {a b : CodeBuffer} {op : CodeOp} (h : a.apply op = .ok b) :
    a.Grows b := by
  cases op with
  | beginElse => exact .beginElse h
  | endIf => exact .endIf h
  | beginIf c =>
    cases h
    exact .refl a
  | anchor id =>
    cases h
    exact .pushSegment _ _
  | push text | assign target value =>
    cases h
    exact .pushText _ _

theorem isLine_assignment {target value : String} (ht : Unbroken target) (hv : Unbroken value) :
    IsLine (assignment target value) := .statement (by simp +decide [ht, hv])

/-- What no block changes: the varyings, the distance of the fog apart, and the notes about the
results of the stages. -/
def Ledger.record (l : Ledger) : List VaryingDecl × Bool × Bool × Bool :=
  (l.varyings, l.allowEmptyVertex, l.vertexWritten, l.fragmentWritten)

/-! ## 3. Manners -/

/-- No symbol that the block sees holds a line break. -/
def Site.Legible {κ : Type} (s : Site κ) : Prop :=
  ∀ slot ∈ s.inputs ++ s.outputs, Unbroken slot.symbol

/-- What a part of a build keeps to. -/
structure Manner (κ : Type) where
  /-- Relates the states of the kind that the part does not tell apart. -/
  alike : κ → κ → Prop := fun _ _ => True
  /-- What holds of the state of the kind from beginning to end. -/
  stays : κ → Prop := fun _ => True
  /-- Outputs are given symbols, attributes are declared, and no code is written: what input blocks
  do. -/
  source : Bool := false
  /-- The names of outputs that are there. -/
  outputs : List String := []
  /-- The uniforms that may be new. -/
  adds : UniformDecl → Prop := fun _ => False
  /-- Whether samplers may be new. -/
  samples : Bool := false
  /-- Nothing that is written fills a varying. -/
  neat : Prop := True
  /-- No symbol holds a line break, nor does anything that is written, apart from ends of lines. -/
  clean : Prop := False
  upright : clean → neat ∧ source = false := by exact fun _ => ⟨trivial, rfl⟩

namespace Manner

variable {κ μ : Type}

/-- The place of a block is as the manner asks. -/
structure Admits (m : Manner κ) (s : Site κ) : Prop where
  kind : m.stays s.kind
  legible : m.clean → s.Legible

/-- A draft after a declaration. -/
structure Declares (m : Manner κ) (d d' : StageDraft) : Prop where
  grows : d.Grows d'
  attributes : d'.attributes = d.attributes
  code : d'.code = d.code
  uniforms : ∀ u ∈ d'.uniforms, u ∈ d.uniforms ∨ m.adds u
  samplers : m.samples = false → d'.samplers = d.samplers

/-- The same manner for the details of a kind. -/
def on (m : Manner κ) (alike : μ → μ → Prop) (wrap : μ → κ) : Manner μ where
  alike := alike
  stays d := m.stays (wrap d)
  source := m.source
  outputs := m.outputs
  adds := m.adds
  samples := m.samples
  neat := m.neat
  clean := m.clean
  upright := m.upright

end Manner

/-- The place of a block after more was written there in a manner. -/
structure Site.Grows {κ : Type} (m : Manner κ) (s t : Site κ) : Prop where
  inputs : t.inputs = s.inputs
  outputs : m.source = false → t.outputs = s.outputs
  vertexDraft : m.source = false → t.vertexDraft = s.vertexDraft
  draft : s.draft.Grows t.draft
  attributes : m.source = false → t.draft.attributes = s.draft.attributes
  uniforms : ∀ u ∈ t.draft.uniforms, u ∈ s.draft.uniforms ∨ m.adds u
  samplers : m.samples = false → t.draft.samplers = s.draft.samplers
  code : ∃ ops, s.draft.code.applyAll ops = .ok t.draft.code ∧
    (m.neat → ∀ op ∈ ops, op.Neat m.clean)
  silent : m.source = true → t.draft.code = s.draft.code
  ledger : s.ledger.Grows t.ledger
  record : m.neat → t.ledger.record = s.ledger.record
  enters : s.Enters t

namespace Site.Grows

variable {κ : Type} {m : Manner κ} {a b c : Site κ} (s : Site κ) {draft : StageDraft}
  {ledger : Ledger}

theorem refl : Site.Grows m s s where
  inputs := rfl
  outputs _ := rfl
  vertexDraft _ := rfl
  draft := .refl _
  attributes _ := rfl
  uniforms _ := .inl
  samplers _ := rfl
  code := ⟨[], rfl, fun _ => nofun⟩
  silent _ := rfl
  ledger := .refl _
  record _ := rfl
  enters := .refl s

theorem trans (hab : Site.Grows m a b) (hbc : Site.Grows m b c) : Site.Grows m a c where
  inputs := hbc.inputs.trans hab.inputs
  outputs h := (hbc.outputs h).trans (hab.outputs h)
  vertexDraft h := (hbc.vertexDraft h).trans (hab.vertexDraft h)
  draft := hab.draft.trans hbc.draft
  attributes h := (hbc.attributes h).trans (hab.attributes h)
  uniforms u hu := (hbc.uniforms u hu).elim (hab.uniforms u) .inr
  samplers h := (hbc.samplers h).trans (hab.samplers h)
  code := by
    obtain ⟨ops, replay, neat⟩ := hab.code
    obtain ⟨more, replay', neat'⟩ := hbc.code
    refine ⟨ops ++ more, CodeBuffer.applyAll_append replay replay', fun h op hop => ?_⟩
    exact (mem_append.mp hop).elim (neat h op) (neat' h op)
  silent h := (hbc.silent h).trans (hab.silent h)
  ledger := hab.ledger.trans hbc.ledger
  record h := (hbc.record h).trans (hab.record h)
  enters := hab.enters.trans hbc.enters

theorem of_draft (h : m.Declares s.draft draft) : Site.Grows m s { s with draft } :=
  { refl s with
    draft := h.grows
    attributes := fun _ => h.attributes
    uniforms := h.uniforms
    samplers := h.samplers
    code := ⟨[], congrArg Except.ok h.code.symm, fun _ => nofun⟩
    silent := fun _ => h.code
    enters := .of_eq rfl rfl }

theorem of_operation (calm : m.source = false) (op : CodeOp)
    (h : s.draft.code.apply op = .ok draft.code)
    (rest : draft = { s.draft with code := draft.code, anchors := draft.anchors })
    (neat : m.neat → op.Neat m.clean) : Site.Grows m s { s with draft } := by
  rw [rest]
  exact { refl s with
    draft := { StageDraft.Grows.refl s.draft with code := .apply h }
    code := ⟨[op], (CodeBuffer.applyAll_singleton _ op).trans h, by simpa using neat⟩
    silent := fun source => absurd (source.symm.trans calm) (by decide)
    enters := .of_eq rfl rfl }

theorem of_ledger (h : s.ledger.Grows ledger) (record : m.neat → ledger.record = s.ledger.record)
    (enters : s.Enters { s with ledger }) : Site.Grows m s { s with ledger } :=
  { refl s with ledger := h, record, enters }

theorem admits (h : Site.Grows m a b) (ha : m.Admits a) (kind : m.stays b.kind) : m.Admits b where
  kind := kind
  legible clean := by
    unfold Legible
    rw [h.inputs, h.outputs (m.upright clean).2]
    exact ha.legible clean

end Site.Grows

/-! ## 4. Parts of a build -/

namespace Emit

variable {κ μ α β : Type} {R : Site κ → Site κ → Prop} {s : Site κ}

/-- The place after a part of a build, which may have failed. -/
def after (e : Emit κ α) (s : Site κ) : Site κ := (e.run.run s).2

theorem run_bind (e : Emit κ α) (f : α → Emit κ β) (s : Site κ) :
    (e >>= f).run.run s =
      match (e.run.run s).1 with
      | .ok x => (f x).run.run (e.after s)
      | .error fault => (.error fault, e.after s) := by
  change (ExceptT.bindCont f (e.run.run s).1).run (e.run.run s).2 = _
  cases (e.run.run s).1 <;> rfl

theorem after_bind (e : Emit κ α) (f : α → Emit κ β) (s : Site κ) :
    (e >>= f).after s =
      match (e.run.run s).1 with
      | .ok x => (f x).after (e.after s)
      | .error _ => e.after s := by
  rw [after, run_bind]
  cases (e.run.run s).1 <;> rfl

theorem after_bind_of_run {e : Emit κ α} {f : α → Emit κ β} {s s' : Site κ} {x : α}
    (h : e.run.run s = (.ok x, s')) : (e >>= f).after s = (f x).after s' := by
  rw [after_bind, after, h]

theorem run_get_bind (f : Site κ → Emit κ β) (s : Site κ) :
    ((get : Emit κ (Site κ)) >>= f).run.run s = (f s).run.run s := rfl

theorem run_output {name : String} {slot : Slot}
    (h : s.outputs.find? (fun slot => slot.name == name) = some slot) :
    (output name : Emit κ Slot).run.run s = (.ok slot, s) := by
  unfold output
  rw [run_get_bind]
  simp only [h]
  rfl

theorem after_get_bind (f : Site κ → Emit κ β) (s : Site κ) :
    (get >>= f).after s = (f s).after s := rfl

/-- An operation on the code that may fail. -/
def onCode (f : CodeBuffer → Except CodeError CodeBuffer) : Emit κ Unit := do
  match (let d := (← get).draft; (f d.code).map fun code => { d with code }) with
  | .ok draft => modifyDraft fun _ => draft
  | .error e => throw (.code e)

theorem run_onCode (f : CodeBuffer → Except CodeError CodeBuffer) (s : Site κ) :
    (onCode f).run.run s = match f s.draft.code with
      | .ok code => (.ok (), { s with draft := { s.draft with code } })
      | .error e => (.error (.code e), s) := by
  unfold onCode
  rw [run_get_bind]
  dsimp only
  cases f s.draft.code <;> rfl

/-- What became of a part of a build at the place `s`: it kept to a manner, a fault by which it
ended is plain, and its result is as `Q` says where no symbol holds a line break. -/
structure Ran (m : Manner κ) (Q : α → Prop) (s : Site κ) (r : Except BuildFault α × Site κ) :
    Prop where
  grows : Site.Grows m s r.2
  stays : m.stays r.2.kind
  plain : ∀ fault, r.1 = .error fault → fault.Plain
  result : m.clean → ∀ x, r.1 = .ok x → Q x

/-- A part of a build that keeps to a manner wherever that admits. -/
def Grows (m : Manner κ) (Q : α → Prop) (e : Emit κ α) : Prop :=
  ∀ s, m.Admits s → Ran m Q s (e.run.run s)

/-- A result of which nothing is known. -/
def Any (_ : α) : Prop := True

variable {m : Manner κ} {Q : α → Prop} {S : β → Prop} {name wish : String}

theorem Ran.onward {s t : Site κ} {r : Except BuildFault α × Site κ} (h : Site.Grows m s t)
    (hr : Ran m Q t r) : Ran m Q s r := { hr with grows := h.trans hr.grows }

/-- A name that is handed out begins with what is left of the wish. -/
theorem run_fresh (wish : String) (f : String → Emit κ α) (s : Site κ) :
    ∃ name, (∃ number, name = cleanName wish ++ number) ∧ Unbroken name ∧
      (freshVariable wish >>= f).run.run s =
        (f name).run.run { s with ledger := (s.ledger.freshVariable wish).2 } := by
  obtain ⟨number, same, -⟩ := s.ledger.names.freshVariable_spec wish
  exact ⟨(s.ledger.names.freshVariable wish).1, ⟨number, same⟩,
    s.ledger.names.unbroken_freshVariable wish, rfl⟩

namespace Grows

theorem pure {x : α} (h : m.clean → Q x) : Grows m Q (Pure.pure x : Emit κ α) := fun s hs =>
  ⟨.refl s, hs.kind, nofun, fun c _ hx => Except.ok.inj hx ▸ h c⟩

theorem throw {fault : BuildFault} (h : fault.Plain) :
    Grows m Q (MonadExcept.throw fault : Emit κ α) := fun s hs =>
  ⟨.refl s, hs.kind, fun _ same => Except.error.inj same ▸ h, nofun⟩

theorem bind {e : Emit κ α} {f : α → Emit κ β} (he : Grows m Q e)
    (hf : ∀ x, (m.clean → Q x) → Grows m S (f x)) : Grows m S (e >>= f) := by
  intro s hs
  obtain ⟨grows, stays, plain, result⟩ := he s hs
  rw [run_bind]
  cases hr : (e.run.run s).1 with
  | error fault =>
    exact ⟨grows, stays, fun _ same => Except.error.inj same ▸ plain fault hr, nofun⟩
  | ok x => exact .onward grows (hf x (fun c => result c x hr) _ (grows.admits hs stays))

theorem read {f : Site κ → Emit κ α} (h : ∀ s, m.Admits s → Grows m Q (f s)) :
    Grows m Q (get >>= f) := fun s hs => h s hs s hs

theorem modify {f : Site κ → Site κ} (h : ∀ s, Site.Grows m s (f s))
    (stays : ∀ s, m.stays s.kind → m.stays (f s).kind) :
    Grows m Any (modify f : Emit κ PUnit) := fun s hs =>
  ⟨h s, stays s hs.kind, nofun, fun _ _ _ => trivial⟩

theorem output (h : Remark name) :
    Grows m (fun slot => Unbroken slot.symbol) (Emit.output name : Emit κ Slot) := by
  refine read fun s hs => ?_
  split
  · rename_i slot found
    exact pure fun c => hs.legible c slot (mem_append_right _ (mem_of_find?_eq_some found))
  · exact throw h

theorem onCode (calm : m.source = false) (op : CodeOp) (neat : m.neat → op.Neat m.clean) :
    Grows m Any (onCode (·.apply op) : Emit κ Unit) := by
  intro s hs
  rw [run_onCode]
  cases hf : s.draft.code.apply op with
  | error e => exact ⟨.refl s, hs.kind, fun _ same => Except.error.inj same ▸ trivial, nofun⟩
  | ok code => exact ⟨.of_operation s calm op hf rfl neat, hs.kind, nofun, fun _ _ _ => trivial⟩

theorem fresh {f : String → Emit κ α} (h : ∀ name, (∃ number, name = cleanName wish ++ number) →
    Unbroken name → Grows m Q (f name)) : Grows m Q (freshVariable wish >>= f) := by
  intro s hs
  obtain ⟨name, lead, unbroken, ran⟩ := run_fresh wish f s
  have step : Site.Grows m s { s with ledger := (s.ledger.freshVariable wish).2 } :=
    .of_ledger s (.freshVariable _ _) (fun _ => rfl) (.of_eq rfl rfl)
  rw [ran]
  exact .onward step (h name lead unbroken _ (step.admits hs hs.kind))

theorem setKind {kind : κ} (h : ∀ k, m.stays k → m.stays kind) :
    Grows m Any (Emit.setKind kind : Emit κ Unit) :=
  modify (fun s => { Site.Grows.refl s with enters := .of_eq rfl rfl }) fun s => h s.kind

end Grows

/-- Declares an attribute, always in the vertex stage. -/
def declareAttribute (decl : AttributeDecl) : Emit κ Unit :=
  modify fun s =>
    match s.vertexDraft with
    | some v => { s with vertexDraft := some (v.addAttribute decl) }
    | none => { s with draft := s.draft.addAttribute decl }

/-- A part of a build, step by step. A part that `may` fail leaves open regions as it finds them.
For one that may not, the regions before it and after it are known, each by whether its other branch
has begun, and it asks for no outputs but those that the manner knows to be there. What a part reads
tells the block not from other blocks. -/
inductive Code (m : Manner κ) :
    {α : Type} → (α → Prop) → Bool → List Bool → List Bool → Emit κ α → Prop
  | pure {α : Type} {Q : α → Prop} {may : Bool} {r : List Bool} {x : α} : (m.clean → Q x) →
      Code m Q may r r (Pure.pure x : Emit κ α)
  | throw {α : Type} {Q : α → Prop} {r : List Bool} {fault : BuildFault} : fault.Plain →
      Code m Q true r r (MonadExcept.throw fault : Emit κ α)
  | bind {α β : Type} {Q : α → Prop} {S : β → Prop} {may : Bool} {a b c : List Bool}
      {e : Emit κ α} {f : α → Emit κ β} : Code m Q may a b e →
      (∀ x, (m.clean → Q x) → Code m S may b c (f x)) → Code m S may a c (e >>= f)
  | sure {α : Type} {Q : α → Prop} {r : List Bool} {e : Emit κ α} :
      (∀ r, Code m Q false r r e) → Code m Q true r r e
  | read {α : Type} {Q : α → Prop} {may : Bool} {a b : List Bool} {f : Site κ → Emit κ α} :
      (∀ (s : Site κ) k block roster, m.alike s.kind k →
        f { s with kind := k, block, ledger := { s.ledger with roster } } = f s) →
      (∀ s, m.Admits s → Code m Q may a b (f s)) → Code m Q may a b (get >>= f)
  | fresh {α : Type} {Q : α → Prop} {may : Bool} {a b : List Bool} {wish : String}
      {f : String → Emit κ α} : (∀ name, (∃ number, name = cleanName wish ++ number) →
        Unbroken name → Code m Q may a b (f name)) → Code m Q may a b (freshVariable wish >>= f)
  | declare {may : Bool} {r : List Bool} {f : StageDraft → StageDraft} :
      (∀ d, m.Declares d (f d)) → Code m Any may r r (modifyDraft f)
  | push {may : Bool} {r : List Bool} {text : String} : m.source = false →
      (m.neat → Spares text) → (m.clean → IsLine text) → Code m Any may r r (push text)
  | anchor {may : Bool} {r : List Bool} : m.source = false →
      Code m Any may r r (modifyDraft StageDraft.pushAnchor)
  | record {may : Bool} {r : List Bool} {f : Ledger → Ledger} : (∀ l : Ledger, l.Grows (f l)) →
      (m.neat → ∀ l : Ledger, (f l).record = l.record) →
      (∀ (l : Ledger) roster, f { l with roster } = { f l with roster }) →
      Code m Any may r r (modifyLedger f)
  | setKind {may : Bool} {r : List Bool} {kind : κ} : (∀ k, m.stays k → m.stays kind) →
      m.alike kind kind → Code m Any may r r (setKind kind)
  | update {α : Type} {Q : α → Prop} {may : Bool} {a b : List Bool} {g : κ → κ}
      {f : Unit → Emit κ α} : (∀ k, m.stays k → m.stays (g k)) →
      (∀ k k', m.alike k k' → m.alike (g k) (g k')) → (∀ x, Code m Q may a b (f x)) →
      Code m Q may a b (do let s ← get; setKind (g s.kind) >>= f)
  | own {may : Bool} {r : List Bool} {name : String} : Remark name → name ∈ m.outputs →
      Code m (fun slot => Unbroken slot.symbol) may r r (output name)
  | freshDefine {may : Bool} {r : List Bool} (wish : String) :
      Code m Any may r r (freshDefine wish)
  | enter {may : Bool} {r : List Bool} (role : Role) : Code m Any may r r (enter role)
  | note {may : Bool} {r : List Bool} {message : String} : (∀ s, Remark (s ++ message)) →
      Code m Any may r r (note message)
  | vertexInput {may : Bool} {r : List Bool} {decl : AttributeDecl} : m.source = true →
      Code m Any may r r (declareAttribute decl)
  | symbol {may : Bool} {r : List Bool} {name symbol : String} : m.source = true →
      Code m Any may r r (setSymbol name symbol)
  | beginIf {r : List Bool} {c : Condition} : m.source = false →
      Code m Any false r (false :: r) (beginIf c)
  | beginElse {r : List Bool} : m.source = false →
      Code m Any false (false :: r) (true :: r) beginElse
  | endIf {r : List Bool} {inner : Bool} : m.source = false → Code m Any false (inner :: r) r endIf

namespace Code

variable {may : Bool} {r r' : List Bool} {expr : String}

theorem language : Code m Any may r r (Emit.language : Emit κ Language) :=
  .read (fun _ _ _ _ _ => rfl) fun _ _ => .pure fun _ => trivial

theorem stage : Code m Any may r r (Emit.stage : Emit κ Stage) :=
  .read (fun _ _ _ _ _ => rfl) fun _ _ => .pure fun _ => trivial

theorem input (h : Remark name) :
    Code m (fun slot => Unbroken slot.symbol) true r r (Emit.input name : Emit κ Slot) := by
  refine .read (fun _ _ _ _ _ => rfl) fun s hs => ?_
  split
  · rename_i slot found
    exact .pure fun c => hs.legible c slot (mem_append_left _ (mem_of_find?_eq_some found))
  · exact .throw h

theorem output (h : Remark name) :
    Code m (fun slot => Unbroken slot.symbol) true r r (Emit.output name : Emit κ Slot) := by
  refine .read (fun _ _ _ _ _ => rfl) fun s hs => ?_
  split
  · rename_i slot found
    exact .pure fun c => hs.legible c slot (mem_append_right _ (mem_of_find?_eq_some found))
  · exact .throw h

section

variable (calm : m.source = false)
include calm

theorem pushLet (l : Language) (type : ValueType) (hn : m.clean → Unbroken name)
    (he : m.clean → Unbroken expr) :
    Code m Any may r r (Emit.push (l.declareLet name type expr) : Emit κ Unit) :=
  .push calm (fun _ => (l.spares_declare ..).1) fun c => (l.isLine_declare _ (hn c) (he c)).1

theorem pushVar (l : Language) (type : ValueType) (hn : m.clean → Unbroken name)
    (he : m.clean → Unbroken expr) :
    Code m Any may r r (Emit.push (l.declareVar name type expr) : Emit κ Unit) :=
  .push calm (fun _ => (l.spares_declare ..).2) fun c => (l.isLine_declare _ (hn c) (he c)).2

theorem declareOutput (h : Remark name) (he : m.clean → Unbroken expr) :
    Code m Any true r r (Emit.declareOutput name expr : Emit κ Unit) :=
  .bind (.output h) fun _ hs => .bind .language fun l _ => .pushLet calm l _ hs he

theorem declareOwn (h : Remark name) (mem : name ∈ m.outputs) (he : m.clean → Unbroken expr) :
    Code m Any may r r (Emit.declareOutput name expr : Emit κ Unit) :=
  .bind (.own h mem) fun _ hs => .bind .language fun l _ => .pushLet calm l _ hs he

end

theorem forM {items : List α} {f : α → Emit κ PUnit}
    (h : ∀ x ∈ items, Code m Any may r r (f x)) : Code m Any may r r (items.forM f) := by
  induction items with
  | nil => exact .pure fun _ => trivial
  | cons x rest ih =>
    rw [forall_mem_cons] at h
    exact .bind h.1 fun _ _ => ih h.2

theorem grows {e : Emit κ α} (h : Code m Q may r r' e) : Grows m Q e := by
  induction h with
  | pure h => exact .pure h
  | throw h => exact .throw h
  | bind _ _ he hf => exact .bind he hf
  | @sure _ _ r _ _ ih => exact ih r
  | read _ _ ih => exact .read ih
  | fresh _ ih => exact .fresh ih
  | declare h => exact .modify (fun s => .of_draft s (h s.draft)) fun _ h => h
  | push calm spares line =>
    exact .modify (fun s => .of_operation s calm (.push _) rfl rfl fun n => ⟨spares n, line⟩)
      fun _ h => h
  | anchor calm =>
    exact .modify (fun s => .of_operation s calm (.anchor s.draft.anchors) rfl rfl fun _ =>
      ⟨trivial, fun _ => trivial⟩) fun _ h => h
  | record grows record roster =>
    refine .modify (fun s => .of_ledger s (grows _) (fun n => record n _) (.of_eq rfl ?_))
      fun _ h => h
    have kept := congrArg Ledger.roster (roster s.ledger s.ledger.roster)
    exact kept
  | setKind h _ => exact .setKind h
  | update h _ _ ih =>
    refine .read fun s hs => .bind (.setKind fun _ _ => h _ hs.kind) fun x _ => ih x
  | own h _ => exact .output h
  | freshDefine wish =>
    exact fun s hs => ⟨.of_ledger s (.freshDefine s.ledger wish) (fun _ => rfl) (.of_eq rfl rfl),
      hs.kind, nofun, fun _ _ _ => trivial⟩
  | enter role =>
    exact .modify (fun s => .of_ledger s (.of_eq rfl rfl rfl rfl) (fun _ => rfl) (.enter s role))
      fun _ h => h
  | note h =>
    exact .modify (fun s => .of_ledger s (.addError s.ledger (h _)) (fun _ => rfl) (.of_eq rfl rfl))
      fun _ h => h
  | vertexInput source =>
    have absurd : ∀ {P : Prop}, m.source = false → P := fun h => by rw [source] at h; cases h
    refine .modify (fun s => ?_) fun s h => ?_
    · split
      · exact { Site.Grows.refl s with vertexDraft := absurd, enters := .of_eq rfl rfl }
      · exact { Site.Grows.refl s with
          draft := .addAttribute _ _
          attributes := absurd
          enters := .of_eq rfl rfl }
    · split <;> exact h
  | symbol source =>
    refine .modify (fun s => { Site.Grows.refl s with outputs := ?_, enters := .of_eq rfl rfl })
      fun _ h => h
    intro h
    rw [source] at h
    cases h
  | beginIf calm =>
    exact .modify (fun s => .of_operation s calm (.beginIf _) rfl rfl fun _ =>
      ⟨trivial, fun _ => trivial⟩) fun _ h => h
  | beginElse calm => exact .onCode calm .beginElse fun _ => ⟨trivial, fun _ => trivial⟩
  | endIf calm => exact .onCode calm .endIf fun _ => ⟨trivial, fun _ => trivial⟩

end Code

end Emit

end ShaderGraph
