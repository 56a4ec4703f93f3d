import Mathlib.Data.List.Nodup
import ShaderGraph.Pass.Names
import ShaderGraph.Proofs.Defines

/-!
# Variables by stem and turn

A variable is a stem, which is made of letters and underscores, with the number of the turn at which
the stem was asked for. Number zero is left out, unless the stem is a reserved word. Stem and number
can be read off a variable, and every turn of a stem comes once, so that no variable is handed out
twice (`NameTable.serve_distinct`).

The table keeps its numbers by stem, and both checks that keep names from being handed out look at
stems. A reserved word that ends in a number is therefore handed out like any other variable
(`NameTable.serve_reserved_iff`), and to exclude a name with a digit has no effect
(`NameTable.serve_excluded_iff`).
-/

namespace ShaderGraph

open List

/-! ## 1. Stems and numbers -/

/-- Letters and underscores, and at least one of them. -/
def IsStem (name : String) : Prop := name ≠ "" ∧ ∀ c ∈ name.toList, isNameChar c = true

instance (name : String) : Decidable (IsStem name) :=
  decidable_of_iff (name ≠ "" ∧ name.toList.all isNameChar = true) (by simp [IsStem])

/-- The number of a turn as it stands behind the stem. -/
def numeral (stem : String) (turn : Nat) : String :=
  if turn = 0 ∧ stem ∉ reservedNames then "" else turn.repr

/-- The variable of a stem at a turn. -/
def variableAt (stem : String) (turn : Nat) : String := stem ++ numeral stem turn

variable {stem stem' name : String} {m n : Nat} {c : Char}

theorem isStem_cleanName (wish : String) : IsStem (cleanName wish) := by
  unfold cleanName
  dsimp only
  split
  · decide
  · rename_i kept
    refine ⟨fun empty => kept ?_, fun c hc => ?_⟩
    · simpa using congrArg String.toList empty
    · rw [String.toList_ofList] at hc
      exact (mem_filter.mp hc).2

theorem cleanName_of_isStem (h : IsStem stem) (digits : ∀ c ∈ name.toList, isNameChar c = false) :
    cleanName (stem ++ name) = stem := by
  have kept : (stem ++ name).toList.filter isNameChar = stem.toList := by
    rw [String.toList_append, filter_append, filter_eq_self.mpr h.2,
      filter_eq_nil_iff.mpr fun c hc => by simp [digits c hc], append_nil]
  unfold cleanName
  dsimp only
  rw [kept, String.ofList_toList]
  exact if_neg fun empty => h.1 (by simpa using empty)

theorem repr_ne_empty (n : Nat) : n.repr ≠ "" := by
  simp [Nat.repr_eq_ofList_toDigits]

theorem isDigit_of_mem_numeral (h : c ∈ (numeral stem n).toList) : c.isDigit = true := by
  unfold numeral at h
  split at h
  · simp at h
  · exact isDigit_of_mem_repr h

theorem numeral_inj (h : numeral stem m = numeral stem n) : m = n := by
  unfold numeral at h
  split at h <;> split at h
  · omega
  · exact absurd h.symm (repr_ne_empty n)
  · exact absurd h (repr_ne_empty m)
  · exact digits_inj h

theorem isNameChar_of_isDigit (h : c.isDigit = true) : isNameChar c = false := by
  have low : c.val.toNat ≤ 57 := by
    simp only [Char.isDigit, Bool.and_eq_true, decide_eq_true_eq, UInt32.le_iff_toNat_le] at h
    exact h.2
  rw [Bool.eq_false_iff]
  intro letter
  delta isNameChar Char.isAlpha Char.isUpper Char.isLower at letter
  simp only [Bool.or_eq_true, Bool.and_eq_true, decide_eq_true_eq, ge_iff_le,
    UInt32.le_iff_toNat_le, beq_iff_eq] at letter
  rcases letter with (⟨upper, -⟩ | ⟨lower, -⟩) | rfl
  · exact absurd (Nat.le_trans upper low) (by decide)
  · exact absurd (Nat.le_trans lower low) (by decide)
  · exact absurd low (by decide)

/-- The stem can be read off a variable. -/
theorem cleanName_variableAt (h : IsStem stem) (n : Nat) : cleanName (variableAt stem n) = stem :=
  cleanName_of_isStem h fun _ hc => isNameChar_of_isDigit (isDigit_of_mem_numeral hc)

theorem variableAt_inj (h : IsStem stem) (h' : IsStem stem')
    (same : variableAt stem m = variableAt stem' n) : stem = stem' ∧ m = n := by
  obtain rfl : stem = stem' := by
    rw [← cleanName_variableAt h m, same, cleanName_variableAt h']
  exact ⟨rfl, numeral_inj (String.append_right_inj stem |>.mp same)⟩

/-- Only the first variable of a stem can be a stem. -/
theorem eq_zero_of_isStem (hs : IsStem stem) (h : IsStem (variableAt stem n)) :
    variableAt stem n = stem ∧ n = 0 ∧ stem ∉ reservedNames := by
  have whole : variableAt stem n = stem := by
    have kept : cleanName (variableAt stem n ++ "") = variableAt stem n :=
      cleanName_of_isStem h (by simp)
    rw [String.append_empty, cleanName_variableAt hs] at kept
    exact kept.symm
  have bare : numeral stem n = "" :=
    (String.append_right_inj stem).mp (whole.trans String.append_empty.symm)
  unfold numeral at bare
  split at bare
  · exact ⟨whole, ‹_›⟩
  · exact absurd bare (repr_ne_empty n)

/-! ## 2. Requests -/

/-- What may be asked of a table of names. -/
inductive NameRequest where
  /-- A variable that is made from a wish. -/
  | allot (wish : String)
  | exclude (name : String)
  | define (wish : String)
deriving DecidableEq

/-- The request asks for a variable of the stem. -/
def NameRequest.asksFor (stem : String) : NameRequest → Bool
  | .allot wish => cleanName wish == stem
  | _ => false

namespace NameTable

variable {t u : NameTable} {requests : List NameRequest}

/-- The answer to a request, and the table after it. -/
def answer (t : NameTable) : NameRequest → Option String × NameTable
  | .allot wish => (some (t.freshVariable wish).1, (t.freshVariable wish).2)
  | .exclude name => (none, t.exclude name)
  | .define wish => (none, (t.freshDefine wish).2)

/-- The variables that requests are answered with, and the table after them. -/
def serve : List NameRequest → NameTable → List String × NameTable
  | [], t => ([], t)
  | r :: rest, t =>
    let (name, t) := t.answer r
    let (names, t) := serve rest t
    (name.toList ++ names, t)

theorem serve_cons (r : NameRequest) (rest : List NameRequest) (t : NameTable) :
    serve (r :: rest) t = ((t.answer r).1.toList ++ (serve rest (t.answer r).2).1,
      (serve rest (t.answer r).2).2) := rfl

/-- The turn at which a stem is asked for next. -/
def turn (t : NameTable) (stem : String) : Nat := (Keyed.get? stem t.symbols).elim 0 (· + 1)

theorem freshVariable_eq (t : NameTable) (wish : String) :
    (t.freshVariable wish).1 = variableAt (cleanName wish) (t.turn (cleanName wish)) := by
  unfold freshVariable turn variableAt numeral
  dsimp only
  cases Keyed.get? (cleanName wish) t.symbols with
  | none =>
    by_cases reserved : cleanName wish ∈ reservedNames
    · simp only [List.contains_iff_mem, reserved, if_true]
      rfl
    · simp [reserved]
  | some n => simp

theorem turn_freshVariable (t : NameTable) (wish stem : String) :
    (t.freshVariable wish).2.turn stem =
      if cleanName wish = stem then t.turn stem + 1 else t.turn stem := by
  unfold freshVariable turn
  dsimp only
  by_cases same : cleanName wish = stem
  · rw [← same]
    cases Keyed.get? (cleanName wish) t.symbols <;> simp [Keyed.get?_insert]
  · cases Keyed.get? (cleanName wish) t.symbols <;> simp [Keyed.get?_insert, same]

theorem turn_exclude (t : NameTable) (name stem : String) :
    (t.exclude name).turn stem = if name = stem then max 1 (t.turn stem) else t.turn stem := by
  unfold exclude turn
  by_cases same : name = stem
  · rw [← same]
    cases h : Keyed.get? name t.symbols <;> simp [Keyed.get?_insert, h]
  · cases Keyed.get? name t.symbols <;> simp [Keyed.get?_insert, same]

/-- A request uses up a turn of a stem if it asks for the stem, and the first one if it excludes the
stem. -/
theorem turn_answer (t : NameTable) (r : NameRequest) (stem : String) :
    (t.answer r).2.turn stem = t.turn stem +
      if r.asksFor stem = true ∨ r = .exclude stem ∧ t.turn stem = 0 then 1 else 0 := by
  cases r with
  | allot wish =>
    refine (turn_freshVariable t wish stem).trans ?_
    simp only [NameRequest.asksFor, beq_iff_eq, reduceCtorEq, false_and, or_false]
    split <;> rfl
  | exclude name =>
    refine (turn_exclude t name stem).trans ?_
    by_cases same : name = stem
    · by_cases zero : t.turn stem = 0 <;> simp [NameRequest.asksFor, same, zero]
      omega
    · simp [NameRequest.asksFor, same]
  | define wish => rfl

/-- An answer is the variable of the stem that the request asks for, at its turn. -/
theorem mem_answer_iff (t : NameTable) (r : NameRequest) :
    name ∈ (t.answer r).1 ↔ ∃ stem, r.asksFor stem = true ∧ IsStem stem ∧
      name = variableAt stem (t.turn stem) := by
  cases r with
  | allot wish =>
    rw [answer, Option.mem_some_iff, freshVariable_eq]
    constructor
    · rintro rfl
      exact ⟨_, beq_self_eq_true _, isStem_cleanName wish, rfl⟩
    · rintro ⟨stem, asks, -, rfl⟩
      rw [beq_iff_eq.mp asks]
  | exclude | define => simp [answer, NameRequest.asksFor]

theorem turn_le_serve (requests : List NameRequest) (t : NameTable) (stem : String) :
    t.turn stem ≤ (serve requests t).2.turn stem := by
  induction requests generalizing t with
  | nil => exact Nat.le_refl _
  | cons r rest ih =>
    have later := ih (t.answer r).2
    rw [turn_answer] at later
    exact Nat.le_of_add_right_le later

/-- What requests are answered with belongs to turns that they use up. -/
theorem turn_of_mem_serve (h : name ∈ (serve requests t).1) : ∃ stem n, IsStem stem ∧
    name = variableAt stem n ∧ t.turn stem ≤ n ∧ n < (serve requests t).2.turn stem := by
  induction requests generalizing t with
  | nil => cases h
  | cons r rest ih =>
    rw [serve_cons] at h ⊢
    rcases mem_append.mp h with h | h
    · obtain ⟨stem, asks, isStem, rfl⟩ := (mem_answer_iff t r).mp (Option.mem_toList.mp h)
      have later := turn_le_serve rest (t.answer r).2 stem
      rw [turn_answer, if_pos (.inl asks)] at later
      exact ⟨stem, _, isStem, rfl, Nat.le_refl _, later⟩
    · obtain ⟨stem, n, isStem, same, low, high⟩ := ih h
      rw [turn_answer] at low
      exact ⟨stem, n, isStem, same, Nat.le_of_add_right_le low, high⟩

/-- Every turn that is used up is an answer, apart from the first one of a stem that is excluded. -/
theorem mem_serve_of_turn (isStem : IsStem stem) (low : t.turn stem ≤ n)
    (high : n < (serve requests t).2.turn stem) (first : n = 0 → .exclude stem ∉ requests) :
    variableAt stem n ∈ (serve requests t).1 := by
  induction requests generalizing t with
  | nil => exact absurd high (Nat.not_lt.mpr low)
  | cons r rest ih =>
    by_cases here : (t.answer r).2.turn stem ≤ n
    · refine mem_append_right _ (ih here high fun zero excluded => ?_)
      exact first zero (mem_cons_of_mem _ excluded)
    · refine mem_append_left _ (Option.mem_toList.mpr ((mem_answer_iff t r).mpr ?_))
      rw [turn_answer] at here
      obtain rfl : n = t.turn stem := by split at here <;> omega
      split at here
      · rename_i used
        refine ⟨stem, used.resolve_right ?_, isStem, rfl⟩
        rintro ⟨rfl, zero⟩
        exact first zero mem_cons_self
      · omega

/-- The turns of a stem that requests use up: one for each of them that asks for the stem, and the
first one if the stem is excluded before it is asked for. -/
def turns (requests : List NameRequest) (stem : String) : Nat :=
  requests.countP (·.asksFor stem) +
    if requests.find? (fun r => r.asksFor stem || r == .exclude stem) = some (.exclude stem) then 1
    else 0

theorem turn_serve_of_pos (requests : List NameRequest) (h : t.turn stem ≠ 0) :
    (serve requests t).2.turn stem = t.turn stem + requests.countP (·.asksFor stem) := by
  induction requests generalizing t with
  | nil => rfl
  | cons r rest ih =>
    have step := t.turn_answer r stem
    simp only [h, and_false, or_false] at step
    refine (ih (t := (t.answer r).2) (by omega)).trans ?_
    rw [step, countP_cons, Nat.add_assoc, Nat.add_comm (rest.countP _)]

theorem turn_serve (requests : List NameRequest) (stem : String) :
    (serve requests {}).2.turn stem = turns requests stem := by
  have general : ∀ t : NameTable, t.turn stem = 0 →
      (serve requests t).2.turn stem = turns requests stem := by
    induction requests with
    | nil => exact fun t h => h
    | cons r rest ih =>
      intro t h
      have step := t.turn_answer r stem
      rw [serve_cons, turns, countP_cons, find?_cons]
      by_cases asks : r.asksFor stem = true
      · have other : r ≠ .exclude stem := by rintro rfl; cases asks
        rw [if_pos (.inl asks), h] at step
        rw [turn_serve_of_pos rest (by omega), step]
        simp [asks, other, Nat.add_comm]
      · by_cases excludes : r = .exclude stem
        · rw [if_pos (.inr ⟨excludes, h⟩), h] at step
          rw [turn_serve_of_pos rest (by omega), step]
          simp [excludes, NameRequest.asksFor, Nat.add_comm]
        · rw [if_neg (by simp [asks, excludes]), h] at step
          rw [ih _ step]
          simp [asks, beq_eq_false_iff_ne.mpr excludes, turns]
  exact general {} rfl

theorem nodup_serve (requests : List NameRequest) (t : NameTable) :
    (serve requests t).1.Nodup := by
  induction requests generalizing t with
  | nil => exact nodup_nil
  | cons r rest ih =>
    rw [serve_cons]
    refine nodup_append.mpr ⟨?_, ih _, ?_⟩
    · cases (t.answer r).1 <;> simp
    · rintro _ now _ later rfl
      obtain ⟨stem, asks, isStem, rfl⟩ := (mem_answer_iff t r).mp (Option.mem_toList.mp now)
      obtain ⟨stem', n, isStem', same, low, -⟩ := turn_of_mem_serve later
      obtain ⟨rfl, rfl⟩ := variableAt_inj isStem isStem' same
      rw [turn_answer, if_pos (.inl asks)] at low
      omega

/-- No variable is handed out twice, whatever is asked for and excluded, and each is an identifier:
letters, digits and underscores, with no digit in front. No number exceeds the number of requests
for its stem, so that 32 bits are enough for fewer than 2 ^ 32 of them. -/
theorem serve_distinct (requests : List NameRequest) :
    (serve requests {}).1.Nodup ∧
      (∀ name ∈ (serve requests {}).1,
        (∀ c ∈ name.toList, c.isAlpha = true ∨ c.isDigit = true ∨ c = '_') ∧
        ∃ c ∈ name.toList.head?, c.isDigit = false) ∧
      ∀ stem n, Keyed.get? stem (serve requests {}).2.symbols = some n →
        n ≤ requests.countP (·.asksFor stem) := by
  refine ⟨nodup_serve requests {}, fun name handed => ?_, fun stem n known => ?_⟩
  · obtain ⟨stem, n, ⟨nonempty, chars⟩, rfl, -⟩ := turn_of_mem_serve handed
    rw [variableAt, String.toList_append]
    refine ⟨forall_mem_append.mpr ⟨fun c hc => ?_, fun c hc => ?_⟩, ?_⟩
    · have char := chars c hc
      rw [isNameChar, Bool.or_eq_true, beq_iff_eq] at char
      exact char.imp_right .inr
    · exact .inr (.inl (isDigit_of_mem_numeral hc))
    · cases whole : stem.toList with
      | nil => exact absurd (String.toList_eq_nil_iff.mp whole) nonempty
      | cons c rest =>
        refine ⟨c, rfl, Bool.eq_false_iff.mpr fun digit => ?_⟩
        have char := chars c (whole ▸ mem_cons_self)
        rw [isNameChar_of_isDigit digit] at char
        cases char
  · have used := turn_serve requests stem
    rw [turn, known, turns] at used
    simp only [Option.elim_some] at used
    split at used <;> omega

/-- The reserved words that end in a number, by stem and number. -/
def numberedWords : List (String × Nat) :=
  [("f", 32), ("i", 32), ("vec", 2), ("vec", 3), ("vec", 4), ("mat", 4)]

/-- A reserved word is handed out exactly if it ends in a number and its stem is asked for, or
excluded and asked for, until the number has its turn. -/
theorem serve_reserved_iff (requests : List NameRequest) (word : String) :
    word ∈ reservedNames ∧ word ∈ (serve requests {}).1 ↔
      ∃ v ∈ numberedWords, word = v.1 ++ v.2.repr ∧ v.2 < turns requests v.1 := by
  have sorts : ∀ word ∈ reservedNames, IsStem word ∨
      (∃ v ∈ numberedWords, word = v.1 ++ v.2.repr) ∨
        ¬(cleanName word).toList <+: word.toList := by decide +kernel
  have spelled : ∀ v ∈ numberedWords, IsStem v.1 ∧ v.1 ++ v.2.repr = variableAt v.1 v.2 ∧
      v.1 ++ v.2.repr ∈ reservedNames ∧ v.2 ≠ 0 := by decide +kernel
  constructor
  · rintro ⟨reserved, handed⟩
    obtain ⟨stem, n, isStem, rfl, -, high⟩ := turn_of_mem_serve handed
    rw [turn_serve] at high
    rcases sorts _ reserved with bare | ⟨v, hv, same⟩ | apart
    · obtain ⟨whole, -, free⟩ := eq_zero_of_isStem isStem bare
      exact absurd (whole ▸ reserved) free
    · obtain ⟨isStem', same', -⟩ := spelled v hv
      obtain ⟨rfl, rfl⟩ := variableAt_inj isStem isStem' (same.trans same')
      exact ⟨v, hv, same, high⟩
    · rw [cleanName_variableAt isStem, variableAt, String.toList_append] at apart
      exact absurd (prefix_append _ _) apart
  · rintro ⟨v, hv, rfl, high⟩
    obtain ⟨isStem, same, reserved, later⟩ := spelled v hv
    refine ⟨reserved, same ▸ mem_serve_of_turn isStem (Nat.zero_le _) ?_ fun h => absurd h later⟩
    rwa [turn_serve]

theorem serve_vec_reserved :
    (serve [.allot "vec", .allot "vec", .allot "vec"] {}).1 = ["vec", "vec1", "vec2"] ∧
      "vec2" ∈ reservedNames := by
  decide +kernel

theorem serve_append (before later : List NameRequest) (t : NameTable) :
    serve (before ++ later) t = ((serve before t).1 ++ (serve later (serve before t).2).1,
      (serve later (serve before t).2).2) := by
  induction before generalizing t with
  | nil => rfl
  | cons r rest ih => rw [cons_append, serve_cons, serve_cons, ih, append_assoc]

/-- Only the turns of the stems matter for what is handed out. -/
theorem serve_congr (h : ∀ stem, IsStem stem → t.turn stem = u.turn stem) :
    (serve requests t).1 = (serve requests u).1 := by
  induction requests generalizing t u with
  | nil => rfl
  | cons r rest ih =>
    have now : (t.answer r).1 = (u.answer r).1 := by
      cases r with
      | allot wish =>
        rw [answer, answer, freshVariable_eq, freshVariable_eq, h _ (isStem_cleanName wish)]
      | exclude | define => rfl
    have later := ih (t := (t.answer r).2) (u := (u.answer r).2) fun stem isStem => by
      rw [turn_answer, turn_answer, h stem isStem]
    rw [serve_cons, serve_cons, now, later]

/-- To exclude a name keeps it from being handed out exactly if it has letters and underscores only;
any other name is handed out as if it had not been excluded. So a name with a number is handed out
after it was excluded exactly if its turn comes after that. -/
theorem serve_excluded_iff (before later : List NameRequest) (name : String) :
    let t := (serve before {}).2
    (name ∈ (serve later (t.exclude name)).1 ↔ ¬IsStem name ∧ name ∈ (serve later t).1) ∧
      ∀ wish n, name = cleanName wish ++ (n + 1).repr →
        (name ∈ (serve later (t.exclude name)).1 ↔
          turns before (cleanName wish) ≤ n + 1 ∧
            n + 1 < turns (before ++ later) (cleanName wish)) := by
  intro t
  have apart : ¬IsStem name → (serve later (t.exclude name)).1 = (serve later t).1 := fun other =>
    serve_congr fun stem isStem => by
      rw [turn_exclude, if_neg]
      rintro rfl
      exact other isStem
  refine ⟨⟨fun handed => ?_, fun ⟨other, handed⟩ => apart other ▸ handed⟩, ?_⟩
  · by_cases bare : IsStem name
    · obtain ⟨stem, n, isStem, rfl, low, -⟩ := turn_of_mem_serve handed
      obtain ⟨whole, rfl, -⟩ := eq_zero_of_isStem isStem bare
      rw [turn_exclude, if_pos whole] at low
      omega
    · exact ⟨bare, apart bare ▸ handed⟩
  · rintro wish n same
    have isStem := isStem_cleanName wish
    replace same : name = variableAt (cleanName wish) (n + 1) := by
      rw [same, variableAt, numeral, if_neg (by omega)]
    have numbered : ¬IsStem name := fun bare =>
      Nat.succ_ne_zero n (eq_zero_of_isStem isStem (same ▸ bare)).2.1
    rw [apart numbered, ← turn_serve, ← turn_serve, serve_append, same]
    constructor
    · intro handed
      obtain ⟨stem, m, isStem', same', low, high⟩ := turn_of_mem_serve handed
      obtain ⟨rfl, rfl⟩ := variableAt_inj isStem isStem' same'
      exact ⟨low, high⟩
    · rintro ⟨low, high⟩
      exact mem_serve_of_turn isStem low high fun zero => absurd zero (Nat.succ_ne_zero n)

theorem serve_uv_excluded :
    "uv2" ∈ (serve [.allot "uv", .allot "uv", .allot "uv"] (exclude {} "uv2")).1 := by
  decide +kernel

end NameTable

end ShaderGraph
