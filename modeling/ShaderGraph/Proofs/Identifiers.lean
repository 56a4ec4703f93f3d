import Mathlib.Data.List.Perm.Subperm
import ShaderGraph.Export.Names
import ShaderGraph.Proofs.Defines
/-!
# Variables of exported code

The variable of a block is made from the words of its name. It is spelled as an identifier, and it
is the first of its candidates that no other block has. Words of the language are avoided as far as
`reservedWords` lists them: any other such word, given as a name, becomes the variable.

* `Export.variableFor_first`: which candidate is chosen, so that it is not taken;
* `Export.spelled_wish`, `Export.spelled_candidate`: all candidates are identifiers;
* `Export.variableFor_identifier`: the properties of the variable, whatever the name is.
-/

namespace ShaderGraph.Export

open List Option String

/-- The words that the language of exported code keeps for itself. -/
def keywords : List String :=
  ["abstract", "as", "async", "await", "become", "box", "break", "const", "continue", "crate", "do",
    "dyn", "else", "enum", "extern", "false", "final", "fn", "for", "gen", "if", "impl", "in",
    "let", "loop", "macro", "match", "mod", "move", "mut", "override", "priv", "pub", "ref",
    "return", "self", "Self", "static", "struct", "super", "trait", "true", "try", "type", "typeof",
    "unsafe", "unsized", "use", "virtual", "where", "while", "yield"]

def words (name : String) : String := String.ofList (snakeFrom [] true name.toList)

/-- A character of a word in small letters. -/
def Plain (c : Char) : Prop := c.isLower = true ∨ c.isDigit = true

/-- An identifier in small letters. -/
structure Spelled (name : String) : Prop where
  chars : ∀ c ∈ name.toList, Plain c ∨ c = '_'
  head : ∃ c ∈ name.toList.head?, c.isLower = true

/-! ## The candidates -/

theorem candidate_injective (base : String) : Function.Injective (candidate base) := by
  have longer (n : Nat) : base ≠ candidate base (n + 1) := by
    intro same
    have length := congrArg String.length same
    rw [candidate, String.length_append, String.length_append] at length
    have one : "_".length = 1 := by decide
    omega
  rintro (_ | i) (_ | j) same
  · rfl
  · exact absurd same (longer j)
  · exact absurd same.symm (longer i)
  · exact digits_inj ((String.append_right_inj _).mp same)

/-- Among one more candidates than are taken there is one that is free; the first of them is
chosen. -/
theorem variableFor_first (name : String) (taken : List String) :
    ∃ n ≤ taken.length, variableFor name taken = candidate (wish name) n ∧
      candidate (wish name) n ∉ taken ∧ ∀ k < n, candidate (wish name) k ∈ taken := by
  let pick := candidate (wish name)
  have free : ∃ n ∈ List.range (taken.length + 1), pick n ∉ taken := by
    by_contra all
    have within : (List.range (taken.length + 1)).map pick ⊆ taken := by
      intro c hc
      obtain ⟨n, hn, rfl⟩ := mem_map.mp hc
      exact by_contra fun new => all ⟨n, hn, new⟩
    have distinct : ((List.range (taken.length + 1)).map pick).Nodup :=
      nodup_range.map (candidate_injective (wish name))
    have short := (distinct.subperm within).length_le
    simp at short
  obtain ⟨m, hm, new⟩ := free
  have found : ((List.range (taken.length + 1)).find? fun n => pick n ∉ taken).isSome = true :=
    find?_isSome.mpr ⟨m, hm, decide_eq_true new⟩
  obtain ⟨n, hn⟩ := isSome_iff_exists.mp found
  have chosen : variableFor name taken = pick n := by
    rw [variableFor, find?_map]
    exact congrArg (fun found : Option Nat => (found.map pick).getD (wish name)) hn
  obtain ⟨new, within, before⟩ := find?_range_eq_some.mp hn
  refine ⟨n, Nat.lt_succ_iff.mp (mem_range.mp within), chosen, of_decide_eq_true new, ?_⟩
  intro k hk
  simpa using before k hk

/-! ## Spelling -/

theorem plain_toLower {c : Char} (h : c.isAlphanum = true) : Plain c.toLower := by
  by_cases upper : c.val ≥ 'A'.val ∧ c.val ≤ 'Z'.val
  · have low : 65 ≤ c.val.toNat := upper.1
    have high : c.val.toNat ≤ 90 := upper.2
    have sum : (c.val + 32).toNat = c.val.toNat + 32 := by
      exact Nat.mod_eq_of_lt (show c.val.toNat + 32 < 4294967296 by omega)
    unfold Plain Char.toLower Char.isLower
    rw [dif_pos upper]
    simp only [ge_iff_le, UInt32.le_iff_toNat_le, Bool.and_eq_true, decide_eq_true_eq]
    exact .inl ⟨show 97 ≤ (c.val + 32).toNat by omega, show (c.val + 32).toNat ≤ 122 by omega⟩
  · have same : c.toLower = c := dif_neg upper
    have capital : c.isUpper = false := by
      unfold Char.isUpper
      simpa using upper
    unfold Char.isAlphanum Char.isAlpha at h
    rw [same, Plain]
    simpa [capital] using h

/-- Words in small letters with underscores between them. -/
structure Words (text : List Char) : Prop where
  chars : ∀ c ∈ text, Plain c ∨ c = '_'
  head : ∀ c ∈ text.head?, Plain c

/-- What has been read of a name, in reverse. -/
structure Reading (out : List Char) (atBreak : Bool) : Prop where
  chars : ∀ c ∈ out, Plain c ∨ c = '_'
  first : ∀ c ∈ out.getLast?, Plain c
  begun : atBreak = false → out ≠ []

namespace Reading

variable {out : List Char} {atBreak : Bool}

theorem push (h : Reading out atBreak) {c : Char} (plain : Plain c) : Reading (c :: out) false := by
  refine ⟨forall_mem_cons.mpr ⟨.inl plain, h.chars⟩, ?_, fun _ => cons_ne_nil _ _⟩
  cases out with
  | nil => simpa using plain
  | cons d out => simpa using h.first

/-- A word ends where one has begun. -/
theorem stop (h : Reading out false) : Reading ('_' :: out) true := by
  refine ⟨forall_mem_cons.mpr ⟨.inr rfl, h.chars⟩, ?_, nofun⟩
  cases out with
  | nil => exact absurd rfl (h.begun rfl)
  | cons d out => simpa using h.first

/-- Underscores at the end are dropped. -/
theorem finish (h : Reading out atBreak) : Words (snakeFrom out atBreak []) := by
  rw [snakeFrom]
  refine ⟨fun c hc => h.chars c (dropWhile_subset _ (mem_reverse.mp hc)), fun c hc => ?_⟩
  rw [head?_reverse] at hc
  obtain ⟨front, whole⟩ := dropWhile_suffix (l := out) (· == '_')
  refine h.first c ?_
  rwa [← whole, getLast?_append_of_ne_nil _ (ne_nil_of_mem (mem_of_getLast? hc))]

theorem snakeFrom (h : Reading out atBreak) (rest : List Char) :
    Words (Export.snakeFrom out atBreak rest) := by
  induction rest generalizing out atBreak with
  | nil => exact h.finish
  | cons c rest ih =>
    rw [Export.snakeFrom]
    by_cases alphanum : c.isAlphanum = true
    · rw [if_pos alphanum]
      have plain := plain_toLower alphanum
      cases atBreak with
      | true =>
        simp only [Bool.not_true, Bool.and_false, Bool.false_eq_true, if_false]
        exact ih (h.push plain)
      | false =>
        split
        · exact ih (h.stop.push plain)
        · exact ih (h.push plain)
    · rw [if_neg alphanum]
      cases atBreak with
      | true => exact ih h
      | false => exact ih h.stop

end Reading

theorem words_spec (name : String) : Words (words name).toList := by
  have start : Reading [] true := ⟨by simp, by simp, nofun⟩
  simpa only [words, toList_ofList] using start.snakeFrom name.toList

/-- The words themselves if they begin with a letter, and the words after `block_` if not. -/
theorem wish_eq (name : String) :
    ∃ base, wish name = (if base ∈ reservedWords then base ++ "_block" else base) ∧
      (base = words name ∧ (∃ c ∈ (words name).toList.head?, c.isLower = true) ∨
        base = "block_" ++ words name ∧ ∀ c ∈ (words name).toList.head?, c.isDigit = true) := by
  have head := (words_spec name).head
  unfold wish words at *
  simp only [contains_iff_mem, toList_ofList] at *
  cases found : snakeFrom [] true name.toList with
  | nil => exact ⟨_, rfl, .inr ⟨rfl, by simp⟩⟩
  | cons c rest =>
    have plain : Plain c := head c (by rw [found]; rfl)
    by_cases digit : c.isDigit = true
    · refine ⟨_, ?_, .inr ⟨rfl, by simpa using digit⟩⟩
      simp only [digit, if_true]
    · refine ⟨_, ?_, .inl ⟨rfl, c, rfl, plain.resolve_right digit⟩⟩
      simp only [digit, if_false, Bool.false_eq_true]

theorem Spelled.append {a b : String} (ha : Spelled a) (hb : ∀ c ∈ b.toList, Plain c ∨ c = '_') :
    Spelled (a ++ b) := by
  obtain ⟨chars, c, hc, small⟩ := ha
  refine ⟨?_, c, ?_, small⟩
  · rw [toList_append]
    exact forall_mem_append.mpr ⟨chars, hb⟩
  · rw [toList_append, head?_append, mem_def.mp hc]
    rfl

theorem spelled_wish (name : String) : Spelled (wish name) := by
  have chars := (words_spec name).chars
  obtain ⟨base, made, base_eq⟩ := wish_eq name
  have spelled : Spelled base := by
    rcases base_eq with ⟨rfl, small⟩ | ⟨rfl, -⟩
    · exact ⟨chars, small⟩
    · exact .append ⟨by simp [Plain], by simp⟩ chars
  rw [made]
  split
  · exact spelled.append (by simp [Plain])
  · exact spelled

theorem spelled_candidate {base : String} (h : Spelled base) (n : Nat) :
    Spelled (candidate base n) := by
  cases n with
  | zero => exact h
  | succ n =>
    refine (h.append (by simp)).append fun c hc => ?_
    exact .inl (.inr (isDigit_of_mem_repr hc))

/-! ## Words of the language -/

theorem not_mem_keywords {s : String} (h : '_' ∈ s.toList) : s ∉ keywords := by
  have joined : ∀ k ∈ keywords, '_' ∉ k.toList := by decide
  exact fun hs => joined s hs h

/-- Words of the language begin with a letter, and so they are the wish if they are not avoided. -/
theorem wish_eq_words {name : String} (keyword : words name ∈ keywords)
    (free : words name ∉ reservedWords) : wish name = words name := by
  have letter : ∀ k ∈ keywords, ∃ c ∈ k.toList.head?, c.isDigit = false := by
    simp [keywords]
  obtain ⟨base, made, ⟨rfl, -⟩ | ⟨-, digits⟩⟩ := wish_eq name
  · rw [made, if_neg free]
  · obtain ⟨c, hc, digit⟩ := letter _ keyword
    rw [digits c hc] at digit
    cases digit

theorem wish_mem_keywords_iff (name : String) :
    wish name ∈ keywords ↔ words name ∈ keywords ∧ words name ∉ reservedWords := by
  constructor
  · intro keyword
    obtain ⟨base, made, base_eq⟩ := wish_eq name
    by_cases reserved : base ∈ reservedWords
    · rw [made, if_pos reserved] at keyword
      exact absurd keyword (not_mem_keywords (by simp [toList_append]))
    · rw [made, if_neg reserved] at keyword
      rcases base_eq with ⟨rfl, -⟩ | ⟨rfl, -⟩
      · exact ⟨keyword, reserved⟩
      · exact absurd keyword (not_mem_keywords (by simp [toList_append]))
  · rintro ⟨keyword, free⟩
    rwa [wish_eq_words keyword free]

theorem variableFor_mem_keywords_iff (name : String) (taken : List String) :
    variableFor name taken ∈ keywords ↔ wish name ∈ keywords ∧ wish name ∉ taken := by
  obtain ⟨n, -, chosen, new, before⟩ := variableFor_first name taken
  rw [chosen]
  cases n with
  | zero => exact (and_iff_left new).symm
  | succ n =>
    refine iff_of_false (not_mem_keywords ?_) fun h => h.2 (before 0 n.succ_pos)
    simp [candidate, toList_append]

/-- The variable for a name is the first free one among the wish and its numbered forms, which comes
before all that are taken have been tried; it is an identifier in small letters. It is a word of the
language exactly if the words of the name are one, which is neither avoided nor taken. -/
theorem variableFor_identifier (name : String) (taken : List String) :
    variableFor name taken ∉ taken ∧ Spelled (variableFor name taken) ∧
      (∃ n ≤ taken.length, variableFor name taken = candidate (wish name) n ∧
        ∀ k < n, candidate (wish name) k ∈ taken) ∧
      (variableFor name taken ∈ keywords ↔
        words name ∈ keywords ∧ words name ∉ reservedWords ∧ words name ∉ taken) := by
  obtain ⟨n, within, chosen, new, before⟩ := variableFor_first name taken
  refine ⟨chosen ▸ new, ?_, ⟨n, within, chosen, before⟩, ?_⟩
  · rw [chosen]
    exact spelled_candidate (spelled_wish name) n
  · rw [variableFor_mem_keywords_iff, wish_mem_keywords_iff, and_assoc]
    refine and_congr_right fun keyword => and_congr_right fun free => ?_
    rw [wish_eq_words keyword free]

/-- A word of the language that is not avoided becomes a variable. -/
theorem loop_variable_is_keyword : variableFor "loop" [] = "loop" ∧ "loop" ∈ keywords := by
  decide

end ShaderGraph.Export
