import ShaderGraph.Block.Kind
import ShaderGraph.Proofs.Defines

/-!
# Texts that blocks write

What is asked of a text while code is written: whether it can be taken for the report of an input
with nothing connected (`Remark`), whether it is one line (`IsLine`), and whether it fills a varying
(`Spares`). Texts that are written out are tested by their characters; the expressions of the blocks
are tested part by part.
-/

namespace ShaderGraph

open List String

variable {text name expr : String} {l : List Char}

theorem toList_of_eq_ofList (h : text = ofList l) :
    text.toList = l := by
  rw [h, toList_ofList]

/-! ## 1. Remarks -/

/-- A text that cannot be taken for the report of an input with nothing connected. -/
def Remark (text : String) : Prop := ¬"optional".toList <:+ text.toList

namespace Remark

theorem toList_optional : "optional".toList = ['o', 'p', 't', 'i', 'o', 'n', 'a', 'l'] :=
  toList_of_eq_ofList rfl

/-- Texts that are written out are tested by their characters: to read these off a text takes far
longer than to compare them. -/
theorem lit (same : text = ofList l)
    (h : ['o', 'p', 't', 'i', 'o', 'n', 'a', 'l'].isSuffixOf l = false) : Remark text := by
  rw [Remark, toList_optional, toList_of_eq_ofList same, ← isSuffixOf_iff_suffix, h]
  exact Bool.false_ne_true

theorem append (same : text = ofList l)
    (h : ['o', 'p', 't', 'i', 'o', 'n', 'a', 'l'].isSuffixOf l = false) (long : 8 ≤ l.length)
    (s : String) : Remark (s ++ text) := by
  intro ends
  rw [toList_append] at ends
  refine lit same h (suffix_of_suffix_length_le ends (suffix_append _ _) ?_)
  rw [toList_optional, toList_of_eq_ofList same]
  exact long

theorem word (h : Remark text) (lead : String) (same : lead = ofList l)
    (blank : [' '].isSuffixOf l = true) (s : String) : Remark (s ++ lead ++ text) := by
  intro ends
  have last : ' ' :: text.toList <:+ (s ++ lead ++ text).toList := by
    obtain ⟨front, hfront⟩ := isSuffixOf_iff_suffix.mp blank
    refine ⟨s.toList ++ front, ?_⟩
    simp [toList_append, toList_of_eq_ofList same, ← hfront]
  rcases suffix_or_suffix_of_suffix ends last with inside | outside
  · rcases suffix_cons_iff.mp inside with whole | inside
    · exact absurd (congrArg head? whole) (by simp)
    · exact h inside
  · exact absurd (toList_optional ▸ outside.subset mem_cons_self) (by decide)

end Remark

theorem ValueType.remark_name (type : ValueType) : Remark type.name := by
  cases type <;> dsimp only [name] <;> exact .lit rfl rfl

def BuildFault.Plain : BuildFault → Prop
  | .noInput _ _ name | .noOutput _ _ name => Remark name
  | _ => True

theorem BuildFault.Plain.remark {fault : BuildFault} (h : fault.Plain) (s : String) :
    Remark (s ++ fault.message) := by
  have long : ∀ (text : String) (l : List Char), text = ofList l →
      ['o', 'p', 't', 'i', 'o', 'n', 'a', 'l'].isSuffixOf l = false → 8 ≤ l.length →
      ∀ t, Remark (s ++ (t ++ text)) := by
    intro text l same other hlong t
    rw [← String.append_assoc]
    exact .append same other hlong _
  have word : ∀ (lead text : String) (l : List Char), Remark text → lead = ofList l →
      [' '].isSuffixOf l = true → ∀ t, Remark (s ++ (t ++ lead ++ text)) := by
    intro lead text l ht same blank t
    rw [← String.append_assoc, ← String.append_assoc]
    exact ht.word lead same blank _
  cases fault with
  | noInput block cls input => exact word "] has no input named " input _ h rfl rfl _
  | noOutput block cls output => exact word "] has no output named " output _ h rfl rfl _
  | operands left right => exact long " cannot be combined" _ rfl rfl (by decide) _
  | gradient found wanted => exact word " does not match " _ _ wanted.remark_name rfl rfl _
  | code cause =>
    cases cause with
    | leftOpen count => exact long " conditional region(s) left open" _ rfl rfl (by decide) _
    | elseWithoutRegion =>
      show Remark (s ++ "else without a matching open conditional region")
      exact .append rfl rfl (by decide) s
    | endWithoutRegion =>
      show Remark (s ++ "end of conditional region without a matching begin")
      exact .append rfl rfl (by decide) s

/-! ## 2. Lines -/

def Unbroken (text : String) : Prop := '\n' ∉ text.toList

instance (text : String) : Decidable (Unbroken text) :=
  inferInstanceAs (Decidable ('\n' ∉ text.toList))

@[simp] theorem unbroken_append {s t : String} : Unbroken (s ++ t) ↔ Unbroken s ∧ Unbroken t := by
  simp [Unbroken, toList_append, not_or]

/-- Texts that are written out are tested by their characters. -/
theorem Unbroken.lit (same : text = ofList l) (h : '\n' ∉ l) : Unbroken text := by
  rw [Unbroken, toList_of_eq_ofList same]
  exact h

theorem unbroken_ofList : Unbroken (ofList l) ↔ '\n' ∉ l := by
  rw [Unbroken, toList_ofList]

/-- A text that is one line with its end. -/
def IsLine (text : String) : Prop := ∃ front, text = front ++ "\n" ∧ Unbroken front

theorem IsLine.statement {front : String} (h : Unbroken front) : IsLine (front ++ ";\n") := by
  refine ⟨front ++ ";", ?_, by simp +decide [h]⟩
  rw [String.append_assoc]
  rfl

/-- The ways in which a reference to a varying begins in the vertex stage. -/
def varyingLeads : List (List Char) :=
  [['v', '_'], ['v', 'F'],
    ['v', 'e', 'r', 't', 'e', 'x', 'O', 'u', 't', 'p', 'u', 't', 's', '.', 'v']]

/-- A text that does not begin with a reference to a varying. -/
def Spares (text : String) : Prop := ∀ lead ∈ varyingLeads, ¬lead <+: text.toList

/-- Two texts of which neither begins with the other stay apart, whatever follows. -/
theorem Spares.append (same : text = ofList l)
    (h : (varyingLeads.all fun lead => !lead.isPrefixOf l && !l.isPrefixOf lead) = true)
    (rest : String) : Spares (text ++ rest) := by
  intro lead hlead starts
  have apart := all_eq_true.mp h lead hlead
  rw [Bool.and_eq_true, Bool.not_eq_true', Bool.not_eq_true'] at apart
  rw [toList_append, toList_of_eq_ofList same] at starts
  rcases prefix_or_prefix_of_prefix starts (prefix_append l _) with shorter | longer
  · rw [← isPrefixOf_iff_prefix, apart.1] at shorter
    cases shorter
  · rw [← isPrefixOf_iff_prefix, apart.2] at longer
    cases longer

theorem Language.spares_declare (l : Language) (name : String) (type : ValueType) (expr : String) :
    Spares (l.declareLet name type expr) ∧ Spares (l.declareVar name type expr) := by
  unfold declareLet declareVar
  cases l with
  | wgsl =>
    simp only [String.append_assoc]
    exact ⟨.append rfl rfl _, .append rfl rfl _⟩
  | glsl =>
    simp only [String.append_assoc]
    cases type <;> exact ⟨.append rfl rfl _, .append rfl rfl _⟩

theorem ValueType.unbroken_shaderName (l : Language) (type : ValueType) :
    Unbroken (type.shaderName l) := by
  cases l <;> cases type <;> exact .lit rfl (by decide)

theorem Language.isLine_declare (l : Language) (type : ValueType) (hn : Unbroken name)
    (he : Unbroken expr) :
    IsLine (l.declareLet name type expr) ∧ IsLine (l.declareVar name type expr) := by
  have type := type.unbroken_shaderName l
  cases l <;> constructor <;> exact .statement (by simp +decide [hn, he, type])

/-! ## 3. Expressions without line breaks -/

theorem IsWord.unbroken (h : IsWord text) : Unbroken text :=
  fun broken => (h _ broken).2 rfl

theorem unbroken_repr (n : Nat) : Unbroken n.repr := (isWord_repr n).unbroken

namespace Language

theorem unbroken_splat (l : Language) (type : ValueType) (h : Unbroken expr) :
    Unbroken (l.splat expr type) := by
  unfold splat
  split
  · exact h
  · simp +decide [h, type.unbroken_shaderName l]

theorem unbroken_castFloat (l : Language) (h : Unbroken expr) : Unbroken (l.castFloat expr) := by
  unfold castFloat
  cases l <;> simp +decide [h]

theorem unbroken_castInt (l : Language) (h : Unbroken expr) : Unbroken (l.castInt expr) := by
  unfold castInt
  cases l <;> simp +decide [h]

theorem unbroken_uniformRef (l : Language) (h : Unbroken name) : Unbroken (l.uniformRef name) := by
  unfold uniformRef
  cases l <;> simp +decide [h]

theorem unbroken_varyingRef (l : Language) (stage : Stage) (h : Unbroken name) :
    Unbroken (l.varyingRef stage name) := by
  unfold varyingRef
  cases l <;> cases stage <;> simp only [unbroken_append, h, and_true]
  · exact .lit rfl (by decide)
  · exact .lit rfl (by decide)

theorem unbroken_position (l : Language) : Unbroken l.position := by
  cases l <;> exact .lit rfl (by decide)

theorem unbroken_color (l : Language) : Unbroken l.color := by
  cases l <;> exact .lit rfl (by decide)

theorem unbroken_sample (l : Language) (stage : Stage) {uv : String} (hn : Unbroken name)
    (hu : Unbroken uv) : Unbroken (l.sample stage name uv) := by
  have comma : Unbroken ", " := .lit rfl (by decide)
  unfold sample
  cases l <;> cases stage <;> simp only [unbroken_append, hn, hu, comma, and_true] <;>
    exact ⟨⟨.lit rfl (by decide), .lit rfl (by decide)⟩, .lit rfl (by decide)⟩

theorem unbroken_coerce {l : Language} {result : String} {source target : ValueType}
    (found : l.coerce expr source target = some result) (h : Unbroken expr) : Unbroken result := by
  unfold coerce at found
  dsimp only at found
  split at found
  · rw [← Option.some.inj found]
    exact h
  · split at found
    · rw [← Option.some.inj found]
      exact l.unbroken_castFloat h
    · split at found
      · rw [← Option.some.inj found]
        exact l.unbroken_splat _ h
      · cases found
    · split at found
      · rw [← Option.some.inj found]
        exact l.unbroken_splat _ (l.unbroken_castFloat h)
      · cases found
    · cases found

end Language

theorem MathOp.unbroken_expression (op : MathOp) {left right : String} (hl : Unbroken left)
    (hr : Unbroken right) : Unbroken (op.expression left right) := by
  unfold expression
  cases op <;> simp +decide [hl, hr]

namespace Number

variable {digits : String}

theorem Layout.unbroken_pointed (h : Unbroken digits) (n : Int) : Unbroken (pointed digits n) := by
  have zeros : ∀ k, Unbroken (zeros k) := by
    intro k
    rw [Layout.zeros, unbroken_ofList]
    intro broken
    cases eq_of_mem_replicate broken
  unfold pointed
  dsimp only
  split
  · simp +decide [h, zeros]
  · split
    · simp +decide [h, zeros]
    · simp only [unbroken_append, unbroken_ofList]
      refine ⟨⟨fun broken => h (mem_of_mem_take broken), by decide⟩, ?_⟩
      exact fun broken => h (mem_of_mem_drop broken)

theorem Layout.unbroken_scientific (h : Unbroken digits) (lead : Int) (plus : Bool) :
    Unbroken (scientific digits lead plus) := by
  have single : ∀ c : Char, c ∈ digits.toList → Unbroken c.toString := by
    intro c hc broken
    have : '\n' = c := by simpa [Char.toString] using broken
    exact h (this ▸ hc)
  have exponent : Unbroken (toString lead) := (isWord_toString_int lead).unbroken
  have sign : Unbroken (if plus && 0 ≤ lead then "+" else "") := by
    split <;> decide
  unfold scientific
  simp only [unbroken_append, exponent, sign, and_true]
  refine ⟨?_, by decide⟩
  split
  · decide
  · rename_i c same
    exact single c (same ▸ mem_cons_self)
  · rename_i c rest _ same
    simp only [unbroken_append, unbroken_ofList]
    refine ⟨⟨single c (same ▸ mem_cons_self), by decide⟩, fun broken => h ?_⟩
    rw [same]
    exact mem_cons_of_mem c broken

theorem Layout.unbroken_finite {f : Format} (l : Layout) (x : Binary f) :
    Unbroken (l.finite x) := by
  have digits := unbroken_repr (Decimal.shortest x l.tie).digits
  unfold finite
  rw [unbroken_append]
  refine ⟨by split <;> decide, ?_⟩
  split
  · decide
  · split
    · exact unbroken_pointed digits _
    · exact unbroken_scientific digits _ _

theorem Single.unbroken_literal (x : Single) : Unbroken x.literal := by
  unfold Single.literal
  split
  · exact Layout.literal.unbroken_finite x
  · decide

end Number

theorem Clamp.unbroken_wholeBound (x : Number.Single) : Unbroken (wholeBound x) :=
  (isWord_toString_int _).unbroken

/-- A name that is handed out begins with what is left of the wish. -/
theorem NameTable.freshVariable_spec (t : NameTable) (wish : String) :
    ∃ number, (t.freshVariable wish).1 = cleanName wish ++ number ∧ Unbroken number := by
  unfold freshVariable
  dsimp only
  split
  · split
    · exact ⟨"0", rfl, by decide⟩
    · exact ⟨"", append_empty.symm, by decide⟩
  · exact ⟨_, rfl, unbroken_repr _⟩

theorem unbroken_cleanName (wish : String) : Unbroken (cleanName wish) := by
  unfold cleanName
  dsimp only
  split
  · decide
  · rw [unbroken_ofList, mem_filter]
    exact fun broken => absurd broken.2 (by decide)

theorem NameTable.unbroken_freshVariable (t : NameTable) (wish : String) :
    Unbroken (t.freshVariable wish).1 := by
  obtain ⟨number, same, unbroken⟩ := t.freshVariable_spec wish
  rw [same, unbroken_append]
  exact ⟨unbroken_cleanName wish, unbroken⟩

end ShaderGraph
