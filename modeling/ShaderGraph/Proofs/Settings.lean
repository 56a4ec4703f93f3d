import Mathlib.Data.List.Nodup
import ShaderGraph.Block.Registry
import ShaderGraph.Proofs.Rounding

/-!
# Settings survive documents

What a kind writes into a document as its settings, the registry reads back. Numbers must be finite,
and integers and the identities that teleports name must fit into 32 bits (`Kind.Storable`); nothing
else is asked for. The kind that is read back declares the same sockets and stages and writes the
same settings again. A teleport comes back waiting for its entry (`Kind.Restores`).
-/

namespace ShaderGraph

open Number Json

/-! ## 1. Fields in order -/

namespace Keyed

variable {κ α : Type} [LT κ] [DecidableLT κ] [DecidableEq κ]

theorem get?_foldl_insert {entries : List (κ × α)} (distinct : (entries.map Prod.fst).Nodup)
    (out : List (κ × α)) (key : κ) :
    get? key (entries.foldl (fun out p => insert p.1 p.2 out) out) =
      (get? key entries).or (get? key out) := by
  induction entries generalizing out with
  | nil => rfl
  | cons p rest ih =>
    rw [List.map_cons, List.nodup_cons] at distinct
    rw [List.foldl_cons, ih distinct.2, get?_insert, get?_cons]
    by_cases h : p.1 = key
    · rw [if_pos h, if_pos h, get?_eq_none (h ▸ distinct.1)]
      rfl
    · rw [if_neg h, if_neg h]

end Keyed

theorem Json.field?_sorted {fields : List (String × Json)} (distinct : (fields.map Prod.fst).Nodup)
    (key : String) : field? (sorted fields) key = field? fields key :=
  (Keyed.get?_foldl_insert distinct [] key).trans (Option.or_none)

/-! ## 2. Values -/

namespace Json

theorem single?_ofSingle {x : Single} (h : x.isFinite = true) : (ofSingle x).single? = some x := by
  rw [ofSingle, if_pos h, single?, Binary.convert_convert Format.single_within_double h]

theorem mapM_single? {items : List Single} (h : ∀ x ∈ items, x.isFinite = true) :
    (items.map ofSingle).mapM single? = some items := by
  induction items with
  | nil => rfl
  | cons x rest ih =>
    rw [List.forall_mem_cons] at h
    rw [List.map_cons, List.mapM_cons, single?_ofSingle h.1, ih h.2]
    rfl

theorem singles?_toList {n : Nat} {v : Vector Single n} (h : ∀ x ∈ v.toList, x.isFinite = true) :
    singles? n (.array (v.toList.map ofSingle)) = some v := by
  rw [singles?, mapM_single? h]
  simp [Vector.toList]

theorem word?_integer {n : Nat} (h : n < twoTo 32) : word? (.integer n) = some n := by
  have range : (0 : Int) ≤ n ∧ (n : Int) ≤ (twoTo 32 : Nat) - 1 := by omega
  rw [word?, integerWithin?, if_pos range]
  rfl

end Json

theorem ValueType.ofName?_name (t : ValueType) : ofName? t.name = some t := by
  cases t <;> rfl

theorem SystemValue.ofName?_name (v : SystemValue) : ofName? v.name = some v := by
  cases v <;> rfl

theorem Animation.ofName?_name (a : Animation) : ofName? a.name = some a := by
  cases a <;> rfl

namespace Value

/-- A value that documents can hold. -/
def Storable : Value → Prop
  | .int n => least32 ≤ n ∧ n ≤ greatest32
  | v => ∀ x ∈ v.components, x.isFinite = true

theorem ofContents?_contents {v : Value} (h : v.Storable) :
    ofContents? v.type v.contents = some v := by
  cases v with
  | float x =>
    have finite := h x (List.mem_singleton_self x)
    simp only [ofContents?, type, contents, single?_ofSingle finite, Option.map_some]
  | int n =>
    have range : least32 ≤ n ∧ n ≤ greatest32 := h
    simp only [ofContents?, type, contents, integerWithin?, if_pos range, Option.map_some]
  | vector2 v | vector3 v | vector4 v | color3 v | color4 v | matrix v =>
    simp only [ofContents?, type, contents, components, singles?_toList h, Option.map_some]

theorem ofJson?_toJson {v : Value} (h : v.Storable) : ofJson? v.toJson = some v := by
  simp [ofJson?, toJson, field?, Keyed.get?, choice?, ValueType.ofName?_name,
    ofContents?_contents h]

end Value

/-! ## 3. Input blocks -/

namespace InputBlock

variable {b : InputBlock}

/-- The settings before they are put in order. -/
def unsorted (b : InputBlock) : List (String × Json) :=
  sourceFields b.source ++ [("pointType", .string b.type.name)] ++
    b.value.toList.map (fun v => ("value", v.toJson)) ++
    [("animationType", .string b.animation.name)]

theorem field?_fields (b : InputBlock) (key : String) :
    field? b.fields key = field? b.unsorted key := by
  refine field?_sorted ?_ key
  obtain ⟨source, _, value, _, _⟩ := b
  cases source <;> cases value <;> simp [sourceFields]

theorem sourceOfFields?_fields (b : InputBlock) : sourceOfFields? b.fields = some b.source := by
  unfold sourceOfFields? sourceOfMode?
  simp only [field?_fields]
  obtain ⟨source, _, _, _, _⟩ := b
  cases source with
  | system v =>
    simp [unsorted, sourceFields, field?, Keyed.get?, systemValue?, choice?,
      SystemValue.ofName?_name]
  | _ => simp [unsorted, sourceFields, field?, Keyed.get?, string?]

theorem field?_pointType (b : InputBlock) :
    field? b.fields "pointType" = some (.string b.type.name) := by
  rw [field?_fields]
  obtain ⟨source, _, _, _, _⟩ := b
  cases source <;> simp [unsorted, sourceFields, field?, Keyed.get?]

theorem field?_animationType (b : InputBlock) :
    field? b.fields "animationType" = some (.string b.animation.name) := by
  rw [field?_fields]
  obtain ⟨source, _, value, _, _⟩ := b
  cases source <;> cases value <;> simp [unsorted, sourceFields, field?, Keyed.get?]

theorem field?_value (b : InputBlock) :
    field? b.fields "value" = b.value.map Value.toJson := by
  rw [field?_fields]
  obtain ⟨source, _, value, _, _⟩ := b
  cases source <;> cases value <;> simp [unsorted, sourceFields, field?, Keyed.get?]

/-- An input block comes back without the uniform of the last pass. -/
theorem ofFields?_fields (h : ∀ v, b.value = some v → v.Storable) :
    ofFields? b.fields = some { b with uniformName := "" } := by
  have value : optionalField? b.fields "value" Value.ofJson? = some b.value := by
    rw [optionalField?, field?_value]
    cases hv : b.value with
    | none => rfl
    | some v =>
      have read := Value.ofJson?_toJson (h v hv)
      simp only [Value.toJson] at read
      simp [Value.toJson, read]
  have animation : fieldOr? b.fields "animationType" Animation.none
      (fun v => v.choice? >>= Animation.ofName?) = some b.animation := by
    rw [fieldOr?, field?_animationType]
    exact Animation.ofName?_name b.animation
  rw [ofFields?, sourceOfFields?_fields, field?_pointType, value, animation]
  simp [choice?, ValueType.ofName?_name]

end InputBlock

/-! ## 4. Kinds -/

theorem Transform.ofFields?_fields {t : Transform} (z : t.complementZ.isFinite = true)
    (w : t.complementW.isFinite = true) : ofFields? t.fields = some t := by
  simp [fields, ofFields?, field?, Keyed.get?, single?_ofSingle z,
    single?_ofSingle w]

theorem Clamp.ofFields?_fields {c : Clamp} (low : c.minimum.isFinite = true)
    (high : c.maximum.isFinite = true) : ofFields? c.fields = some c := by
  simp [fields, ofFields?, field?, Keyed.get?, single?_ofSingle low,
    single?_ofSingle high]

namespace Kind

variable {k k' : Kind}

/-- A kind whose settings documents can hold. -/
def Storable : Kind → Prop
  | .input b => ∀ v, b.value = some v → v.Storable
  | .transform t => t.complementZ.isFinite = true ∧ t.complementW.isFinite = true
  | .clamp c => c.minimum.isFinite = true ∧ c.maximum.isFinite = true
  | .teleportOut t => ∀ id, t.entry = some id → id.index < twoTo 32
  | _ => True

/-- The kind that the registry makes for the name of a kind. -/
def initial : Kind → Kind
  | .input _ => .input (.ofConstant (.float Binary.zero))
  | .transform _ => .transform {}
  | .fragmentOutput _ => .fragmentOutput {}
  | .clamp _ => .clamp {}
  | .texture _ => .texture {}
  | .morphTargets _ => .morphTargets {}
  | .bones _ => .bones {}
  | .fog _ => .fog {}
  | .teleportOut _ => .teleportOut {}
  | k => k

theorem create_className (k : Kind) : Registry.builtin.create k.className = .ok k.initial := by
  have found : Registry.builtin.find? k.className = some k.initial := by
    unfold Registry.builtin Registry.find? Registry.register
    cases k with
    | math op =>
      cases op <;>
        simp [Keyed.get?_insert, className, MathOp.all, MathOp.className, MathOp.name, initial]
    | _ => simp [Keyed.get?_insert, className, MathOp.all, MathOp.className, MathOp.name, initial]
  rw [Registry.create, found]

/-- A kind that was read back from the settings of another one. -/
structure Restores (k k' : Kind) : Prop where
  className : k'.className = k.className
  inputs : k'.inputs = k.inputs
  outputs : k'.outputs = k.outputs
  target : k'.target = k.target
  teleportIn : k'.isTeleportIn = k.isTeleportIn
  entry : k'.teleportEntry = none
  pending : k'.takePending.1 = k.teleportEntry.map BlockId.index
  fields : ∀ e, (k'.setTeleportEntry e).fields = (k.setTeleportEntry e).fields

theorem exists_restores (h : k.Storable) :
    ∃ k', k.initial.setFields? k.fields = some k' ∧ k.Restores k' := by
  cases k with
  | input b =>
    refine ⟨.input { b with uniformName := "" }, ?_,
      ⟨rfl, rfl, rfl, rfl, rfl, rfl, rfl, fun _ => rfl⟩⟩
    simp only [initial, setFields?, fields, InputBlock.ofFields?_fields h, Option.map_some]
  | transform t =>
    refine ⟨.transform t, ?_, ⟨rfl, rfl, rfl, rfl, rfl, rfl, rfl, fun _ => rfl⟩⟩
    simp only [initial, setFields?, fields, Transform.ofFields?_fields h.1 h.2, Option.map_some]
  | fragmentOutput f =>
    refine ⟨.fragmentOutput { gamma := f.gamma, linear := f.linear }, ?_,
      ⟨rfl, rfl, rfl, rfl, rfl, rfl, rfl, fun _ => rfl⟩⟩
    simp [initial, setFields?, fields, FragmentOutput.fields, FragmentOutput.ofFields?,
      fieldOr?, field?, Keyed.get?, bool?]
  | clamp c =>
    refine ⟨.clamp c, ?_, ⟨rfl, rfl, rfl, rfl, rfl, rfl, rfl, fun _ => rfl⟩⟩
    simp only [initial, setFields?, fields, Clamp.ofFields?_fields h.1 h.2, Option.map_some]
  | texture t =>
    refine ⟨.texture { url := t.url, texture := t.url.map fun u => { url := u } }, ?_,
      ⟨rfl, rfl, rfl, rfl, rfl, rfl, rfl, fun _ => rfl⟩⟩
    cases hu : t.url <;> simp [initial, setFields?, fields, TextureBlock.fields,
      TextureBlock.setFields?, hu, optionalField?, field?, Keyed.get?, string?]
  | teleportOut t =>
    refine ⟨.teleportOut { pending := t.entry.map BlockId.index }, ?_,
      ⟨rfl, rfl, rfl, rfl, rfl, rfl, rfl, fun _ => rfl⟩⟩
    cases he : t.entry with
    | none => simp [initial, setFields?, fields, TeleportOut.fields, TeleportOut.setFields?, he,
        optionalField?, field?, Keyed.get?]
    | some id => simp [initial, setFields?, fields, TeleportOut.fields, TeleportOut.setFields?, he,
        optionalField?, field?, Keyed.get?, word?_integer (h id he)]
  | vertexOutput | math _ | lerp | vectorMerger | morphTargets _ | bones _ | fog _ | teleportIn =>
    exact ⟨_, rfl, ⟨rfl, rfl, rfl, rfl, rfl, rfl, rfl, fun _ => rfl⟩⟩

end Kind

end ShaderGraph
