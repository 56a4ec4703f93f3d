import Mathlib.Data.List.Sort
import Mathlib.Data.String.Basic
import ShaderGraph.Define.Condition

/-!
# What the signature of a define set tells

Programs are found again by the signature of their defines. The signature leaves out flags that are
off and does not tell where a set came from, but it decides everything that code can ask a set:
sets of the same signature agree on what is defined and on every count
(`DefineSet.agrees_of_signature`), as long as names are single words.
-/

namespace ShaderGraph

open List

/-! ## 1. Lists with increasing keys -/

namespace Keyed

theorem mem_insert {κ α : Type} [LT κ] [DecidableLT κ] [DecidableEq κ] {entries : List (κ × α)}
    {key : κ} {value : α} {e : κ × α} (h : e ∈ insert key value entries) :
    e = (key, value) ∨ e ∈ entries := by
  fun_induction insert key value entries with
  | case1 => exact .inl (mem_singleton.mp h)
  | case2 v rest => exact (mem_cons.mp h).imp_right (mem_cons_of_mem _)
  | case3 k v rest _ _ => exact mem_cons.mp h
  | case4 k v rest _ _ ih =>
    rcases mem_cons.mp h with rfl | h
    · exact .inr mem_cons_self
    · exact (ih h).imp_right (mem_cons_of_mem _)

theorem mem_of_get? {κ α : Type} [DecidableEq κ] {entries : List (κ × α)} {key : κ} {value : α}
    (h : get? key entries = some value) : (key, value) ∈ entries := by
  induction entries with
  | nil => cases h
  | cons e rest ih =>
    rw [get?_cons] at h
    split at h
    · rename_i heq
      cases h
      exact heq ▸ mem_cons_self
    · exact mem_cons_of_mem _ (ih h)

theorem get?_of_mem {κ α : Type} [DecidableEq κ] {entries : List (κ × α)} {e : κ × α}
    (h : (entries.map Prod.fst).Nodup) (he : e ∈ entries) : get? e.1 entries = some e.2 := by
  induction entries with
  | nil => cases he
  | cons x rest ih =>
    obtain ⟨fresh, h⟩ := nodup_cons.mp h
    rw [get?_cons]
    rcases mem_cons.mp he with rfl | he
    · exact if_pos rfl
    · rw [if_neg fun same : x.1 = e.1 => fresh (same ▸ mem_map_of_mem he)]
      exact ih h he

theorem pairwise_insert {κ α : Type} [LT κ] [DecidableLT κ] [DecidableEq κ]
    (trans : ∀ {a b c : κ}, a < b → b < c → a < c) (total : ∀ {a b : κ}, a ≠ b → a < b ∨ b < a)
    {entries : List (κ × α)} (h : entries.Pairwise fun a b => a.1 < b.1) (key : κ) (value : α) :
    (insert key value entries).Pairwise fun a b => a.1 < b.1 := by
  fun_induction insert key value entries with
  | case1 => exact pairwise_singleton _ _
  | case2 v rest => exact pairwise_cons.mpr (pairwise_cons.mp h)
  | case3 k v rest _ hlt =>
    obtain ⟨first, -⟩ := pairwise_cons.mp h
    refine pairwise_cons.mpr ⟨fun e he => ?_, h⟩
    rcases mem_cons.mp he with rfl | he
    · exact hlt
    · exact trans hlt (first e he)
  | case4 k v rest hne hnlt ih =>
    obtain ⟨first, rest⟩ := pairwise_cons.mp h
    refine pairwise_cons.mpr ⟨fun e he => ?_, ih rest⟩
    rcases mem_insert he with rfl | he
    · exact (total hne).resolve_left hnlt
    · exact first e he

variable {α : Type} {entries : List (String × α)} {key : String}

/-- The keys stand in increasing order. -/
def Sorted (entries : List (String × α)) : Prop := entries.Pairwise fun a b => a.1 < b.1

theorem Sorted.insert (h : Sorted entries) (key : String) (value : α) :
    Sorted (insert key value entries) :=
  pairwise_insert String.lt_trans lt_or_gt_of_ne h key value

theorem Sorted.distinct (h : Sorted entries) : (entries.map Prod.fst).Nodup :=
  pairwise_map.mpr (h.imp fun hlt => ne_of_lt hlt)

/-- The look-ups decide a list with increasing keys. -/
theorem Sorted.ext {entries' : List (String × α)} (h : Sorted entries) (h' : Sorted entries')
    (same : ∀ key, get? key entries = get? key entries') : entries = entries' := by
  refine List.Pairwise.eq_of_mem_iff h h' fun e => ⟨fun he => ?_, fun he => ?_⟩
  · exact mem_of_get? ((same e.1).symm.trans (get?_of_mem h.distinct he))
  · exact mem_of_get? ((same e.1).trans (get?_of_mem h'.distinct he))

/-- Where each key stands once, leaving pairs out leaves out their values and nothing else. -/
theorem get?_filter (keep : α → Bool) (h : (entries.map Prod.fst).Nodup) (key : String) :
    get? key (entries.filter fun e => keep e.2) = (get? key entries).filter keep := by
  induction entries with
  | nil => rfl
  | cons e rest ih =>
    obtain ⟨fresh, h⟩ := nodup_cons.mp h
    rw [get?_cons, filter_cons]
    by_cases hkey : e.1 = key
    · rw [if_pos hkey]
      by_cases hkeep : keep e.2 = true
      · rw [if_pos hkeep, get?_cons, if_pos hkey, Option.filter_some, if_pos hkeep]
      · rw [if_neg hkeep, ih h, get?_eq_none (hkey ▸ fresh), Option.filter_some, if_neg hkeep]
        rfl
    · rw [if_neg hkey, ← ih h]
      by_cases hkeep : keep e.2 = true
      · rw [if_pos hkeep, get?_cons, if_neg hkey]
      · rw [if_neg hkeep]

end Keyed

/-! ## 2. Lines of defines -/

/-- A name without spaces and ends of lines. -/
def IsWord (name : String) : Prop := ∀ c ∈ name.toList, c ≠ ' ' ∧ c ≠ '\n'

instance : DecidablePred IsWord := fun name =>
  decidableBAll (fun c => c ≠ ' ' ∧ c ≠ '\n') name.toList

theorem IsWord.append {s t : String} (hs : IsWord s) (ht : IsWord t) : IsWord (s ++ t) := by
  intro c hc
  rw [String.toList_append, mem_append] at hc
  exact hc.elim (hs c) (ht c)

/-- Two texts that go on behind a stop agree up to the stop and behind it. -/
theorem append_stop_inj {P : Char → Prop} {xs ys r r' : List Char} {a b : Char}
    (hx : ∀ c ∈ xs, ¬P c) (hy : ∀ c ∈ ys, ¬P c) (ha : P a) (hb : P b)
    (h : xs ++ a :: r = ys ++ b :: r') : xs = ys ∧ a = b ∧ r = r' := by
  induction xs generalizing ys with
  | nil =>
    cases ys with
    | nil => exact ⟨rfl, cons.inj h⟩
    | cons y ys => exact absurd ((cons.inj h).1 ▸ ha) (hy y mem_cons_self)
  | cons x xs ih =>
    cases ys with
    | nil => exact absurd ((cons.inj h).1 ▸ hb) (hx x mem_cons_self)
    | cons y ys =>
      obtain ⟨rfl, tails⟩ := cons.inj h
      rw [forall_mem_cons] at hx hy
      obtain ⟨rfl, rest⟩ := ih hx.2 hy.2 tails
      exact ⟨rfl, rest⟩

theorem digits_inj {n m : Nat} (h : n.repr = m.repr) : n = m := by
  rw [Nat.repr_eq_ofList_toDigits, Nat.repr_eq_ofList_toDigits, String.ofList_inj] at h
  rw [← Nat.ofDigitChars_ten_toDigits (n := n), h, Nat.ofDigitChars_ten_toDigits]

theorem isDigit_of_mem_repr {n : Nat} {c : Char} (h : c ∈ n.repr.toList) : c.isDigit = true := by
  rw [Nat.repr_eq_ofList_toDigits, String.toList_ofList] at h
  exact Nat.isDigit_of_mem_toDigits (by decide) (by decide) h

theorem isWord_repr (n : Nat) : IsWord n.repr := by
  intro c hc
  have digit := isDigit_of_mem_repr hc
  constructor <;> rintro rfl <;> cases digit

theorem isWord_toString_int (n : Int) : IsWord (toString n) := by
  rw [Int.toString_eq_repr, Int.repr_eq_if]
  split
  · exact isWord_repr _
  · exact .append (by decide) (isWord_repr _)

theorem toString_int_inj {n m : Int} (h : toString n = toString m) : n = m := by
  -- a sign is no digit
  have signed : ∀ {i j : Nat}, i.repr ≠ "-" ++ j.repr := by
    intro i j h
    have sign : '-' ∈ i.repr.toList := by simp [h]
    have digit := isDigit_of_mem_repr sign
    cases digit
  rw [Int.toString_eq_repr, Int.toString_eq_repr, Int.repr_eq_if, Int.repr_eq_if] at h
  split at h <;> split at h
  · have := digits_inj h
    omega
  · exact absurd h signed
  · exact absurd h.symm signed
  · have := digits_inj (String.append_right_inj "-" |>.mp h)
    omega

/-- Whether a value stands in the signature. -/
def DefineValue.isOn : DefineValue → Bool
  | .flag on => on
  | .count _ => true

namespace DefineSet

variable {d d' : DefineSet} {name : String}

/-- What stands behind the name in the line of a define, up to the text behind the line. -/
def behindName : DefineValue → List Char → List Char
  | .flag _, r => '\n' :: r
  | .count n, r => ' ' :: ((toString n).toList ++ '\n' :: r)

theorem line_append (name : String) {v : DefineValue} (on : v.isOn = true) (r : List Char) :
    (line name v).toList ++ r = "#define ".toList ++ (name.toList ++ behindName v r) := by
  cases v with
  | flag b =>
    obtain rfl : b = true := on
    simp [line, behindName]
  | count n => simp [line, behindName]

theorem behindName_cons (v : DefineValue) (r : List Char) :
    ∃ a rest, behindName v r = a :: rest ∧ (a = ' ' ∨ a = '\n') := by
  cases v with
  | flag _ => exact ⟨_, _, rfl, .inr rfl⟩
  | count _ => exact ⟨_, _, rfl, .inl rfl⟩

theorem behindName_inj {v v' : DefineValue} {r r' : List Char} (on : v.isOn = true)
    (on' : v'.isOn = true) (h : behindName v r = behindName v' r') : v = v' ∧ r = r' := by
  cases v with
  | flag b =>
    obtain rfl : b = true := on
    cases v' with
    | flag b' =>
      obtain rfl : b' = true := on'
      exact ⟨rfl, (cons.inj h).2⟩
    | count m => cases (cons.inj h).1
  | count n =>
    cases v' with
    | flag b' => cases (cons.inj h).1
    | count m =>
      obtain ⟨digits, -, rfl⟩ := append_stop_inj (P := (· = '\n'))
        (fun c hc => (isWord_toString_int n c hc).2) (fun c hc => (isWord_toString_int m c hc).2)
        rfl rfl (cons.inj h).2
      rw [toString_int_inj (String.toList_inj.mp digits)]
      exact ⟨rfl, rfl⟩

/-- A line tells the name and the value of its define, whatever stands behind it. -/
theorem line_append_inj {e e' : String × DefineValue} {r r' : List Char} (hw : IsWord e.1)
    (hw' : IsWord e'.1) (on : e.2.isOn = true) (on' : e'.2.isOn = true)
    (h : (line e.1 e.2).toList ++ r = (line e'.1 e'.2).toList ++ r') : e = e' ∧ r = r' := by
  rw [line_append _ on, line_append _ on', append_right_inj] at h
  obtain ⟨a, rest, hbehind, ha⟩ := behindName_cons e.2 r
  obtain ⟨a', rest', hbehind', ha'⟩ := behindName_cons e'.2 r'
  rw [hbehind, hbehind'] at h
  obtain ⟨names, rfl, rfl⟩ := append_stop_inj (P := fun c => c = ' ' ∨ c = '\n')
    (fun c hc => not_or.mpr (hw c hc)) (fun c hc => not_or.mpr (hw' c hc)) ha ha' h
  obtain ⟨values, rfl⟩ := behindName_inj on on' (hbehind.trans hbehind'.symm)
  exact ⟨Prod.ext (String.toList_inj.mp names) values, rfl⟩

theorem lines_inj {xs ys : List (String × DefineValue)}
    (hx : ∀ e ∈ xs, IsWord e.1 ∧ e.2.isOn = true) (hy : ∀ e ∈ ys, IsWord e.1 ∧ e.2.isOn = true)
    (h : xs.flatMap (fun e => (line e.1 e.2).toList) =
      ys.flatMap fun e => (line e.1 e.2).toList) : xs = ys := by
  have nonempty : ∀ {e : String × DefineValue} {r : List Char}, e.2.isOn = true →
      (line e.1 e.2).toList ++ r ≠ [] := by
    intro e r on h
    rw [line_append _ on] at h
    cases h
  induction xs generalizing ys with
  | nil =>
    cases ys with
    | nil => rfl
    | cons y ys => exact absurd h.symm (nonempty (hy y mem_cons_self).2)
  | cons x xs ih =>
    cases ys with
    | nil => exact absurd h (nonempty (hx x mem_cons_self).2)
    | cons y ys =>
      rw [forall_mem_cons] at hx hy
      obtain ⟨rfl, rest⟩ := line_append_inj hx.1.1 hy.1.1 hx.1.2 hy.1.2 h
      rw [ih hx.2 hy.2 rest]

/-! ## 3. Signatures -/

/-- The pairs of a set that stand in its signature. -/
def listed (d : DefineSet) : List (String × DefineValue) := d.values.filter fun e => e.2.isOn

theorem toList_signature (d : DefineSet) :
    d.signature.toList = d.listed.flatMap fun e => (line e.1 e.2).toList := by
  have grown : ∀ (entries : List (String × DefineValue)) (out : String),
      (entries.foldl (fun out e => out ++ line e.1 e.2) out).toList =
        out.toList ++ (entries.filter fun e => e.2.isOn).flatMap fun e =>
          (line e.1 e.2).toList := by
    intro entries
    induction entries with
    | nil => simp
    | cons e rest ih =>
      intro out
      obtain ⟨name, v⟩ := e
      rw [foldl_cons, ih, filter_cons]
      by_cases on : v.isOn = true
      · rw [if_pos on, flatMap_cons, String.toList_append, append_assoc]
      · rw [if_neg on]
        cases v with
        | flag b =>
          obtain rfl : b = false := by simpa [DefineValue.isOn] using on
          simp [line]
        | count n => exact absurd rfl on
  exact grown d.values ""

/-- Sets in order of name that differ only in flags that are off have one signature. -/
theorem signature_eq_of_reads (hd : Keyed.Sorted d.values) (hd' : Keyed.Sorted d'.values)
    (h : ∀ name, (d.get? name).filter DefineValue.isOn = (d'.get? name).filter DefineValue.isOn) :
    d.signature = d'.signature := by
  have listed : d.listed = d'.listed := by
    refine Keyed.Sorted.ext (hd.sublist filter_sublist) (hd'.sublist filter_sublist)
      fun name => ?_
    have reads := Keyed.get?_filter DefineValue.isOn hd.distinct name
    exact reads.trans ((h name).trans (Keyed.get?_filter DefineValue.isOn hd'.distinct name).symm)
  rw [← String.toList_inj, toList_signature, toList_signature, listed]

/-- A set in which each name stands once and is a single word. -/
structure Plain (d : DefineSet) : Prop where
  distinct : (d.values.map Prod.fst).Nodup
  words : ∀ e ∈ d.values, IsWord e.1

/-- Two sets that no condition tells apart. -/
structure Agrees (d d' : DefineSet) : Prop where
  isDefined : ∀ name, d.isDefined name = d'.isDefined name
  count : ∀ name, d.count name = d'.count name

theorem Agrees.of_reads (h : ∀ name, d.get? name = d'.get? name) : d.Agrees d' := by
  constructor
  · intro name
    rw [DefineSet.isDefined, DefineSet.isDefined, h]
  · intro name
    rw [DefineSet.count, DefineSet.count, h]

theorem listed_of_signature (hd : d.Plain) (hd' : d'.Plain) (h : d.signature = d'.signature) :
    d.listed = d'.listed := by
  have good : ∀ {d : DefineSet}, d.Plain → ∀ e ∈ d.listed, IsWord e.1 ∧ e.2.isOn = true := by
    intro d hd e he
    obtain ⟨hmem, on⟩ := mem_filter.mp he
    exact ⟨hd.words e hmem, on⟩
  refine lines_inj (good hd) (good hd') ?_
  rw [← toList_signature, ← toList_signature, h]

theorem get?_listed (hd : d.Plain) (name : String) :
    Keyed.get? name d.listed = (d.get? name).filter DefineValue.isOn :=
  Keyed.get?_filter DefineValue.isOn hd.distinct name

theorem isDefined_eq_isSome (d : DefineSet) (name : String) :
    d.isDefined name = ((d.get? name).filter DefineValue.isOn).isSome := by
  rw [isDefined]
  cases d.get? name with
  | none => rfl
  | some v =>
    cases v with
    | flag on => cases on <;> rfl
    | count n => rfl

theorem isDefined_eq (hd : d.Plain) (name : String) :
    d.isDefined name = (Keyed.get? name d.listed).isSome := by
  rw [get?_listed hd, isDefined_eq_isSome]

theorem count_eq (hd : d.Plain) (name : String) :
    d.count name = match Keyed.get? name d.listed with
      | some (.count n) => n
      | some (.flag _) => 1
      | none => 0 := by
  rw [get?_listed hd, count]
  cases d.get? name with
  | none => rfl
  | some v =>
    cases v with
    | flag on => cases on <;> rfl
    | count n => rfl

/-- The signature decides what is defined and every count. -/
theorem agrees_of_signature (hd : d.Plain) (hd' : d'.Plain) (h : d.signature = d'.signature) :
    d.Agrees d' := by
  have same := listed_of_signature hd hd' h
  constructor
  · intro name
    rw [isDefined_eq hd, isDefined_eq hd', same]
  · intro name
    rw [count_eq hd, count_eq hd', same]

theorem Agrees.holds (h : d.Agrees d') (c : Condition) : c.holds d = c.holds d' := by
  cases c with
  | defined n => exact h.isDefined n
  | notDefined n => exact congrArg (!·) (h.isDefined n)
  | greaterThan n v => simp only [Condition.holds, h.count n]

/-! ## 4. Sets that are written to -/

/-- A set in order of name, with names that are single words. -/
structure Tidy (d : DefineSet) : Prop where
  sorted : Keyed.Sorted d.values
  words : ∀ e ∈ d.values, IsWord e.1

namespace Tidy

theorem plain (hd : d.Tidy) : d.Plain := ⟨hd.sorted.distinct, hd.words⟩

theorem of_values (hd : d.Tidy) (h : d'.values = d.values) : d'.Tidy :=
  ⟨h ▸ hd.sorted, h ▸ hd.words⟩

theorem setQuiet (hd : d.Tidy) (hw : IsWord name) (v : DefineValue) :
    (d.setQuiet name v).Tidy where
  sorted := hd.sorted.insert name v
  words e he := by
    rcases Keyed.mem_insert he with rfl | he
    · exact hw
    · exact hd.words e he

theorem put (hd : d.Tidy) (hw : IsWord name) (v : DefineValue) (c : DefineCategory) :
    (d.put name v c).Tidy := by
  unfold DefineSet.put
  split
  · exact (hd.setQuiet hw v).of_values rfl
  · exact hd

theorem switchOff (hd : d.Tidy) {names : List String} (hw : ∀ n ∈ names, IsWord n) :
    (d.switchOff names).Tidy := by
  induction names generalizing d with
  | nil => exact hd
  | cons n rest ih =>
    rw [forall_mem_cons] at hw
    exact ih (hd.setQuiet hw.1 _) hw.2

end Tidy

end DefineSet

end ShaderGraph
