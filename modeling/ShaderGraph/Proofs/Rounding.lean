import Mathlib.Tactic.Ring
import ShaderGraph.Number.Binary

/-!
# Widening and narrowing lose nothing

Rounding gives back a number that is representable (`Binary.Holds.ofScaled_eq`). A format that is
wide enough has every finite number of another one (`Binary.exists_holds`), so that the conversions
there and back are exact (`Binary.convert_convert`).
-/

namespace ShaderGraph.Number

variable {n : Nat}

open Nat

theorem twoTo_add (a b : Nat) : twoTo (a + b) = twoTo a * twoTo b := pow_add 2 a b

theorem log2_eq_iff {k : Nat} (hn : n ≠ 0) : n.log2 = k ↔ twoTo k ≤ n ∧ n < 2 * twoTo k := by
  rw [Nat.log2_eq_iff hn, ← twoTo_succ]
  rfl

theorem log2_mul_twoTo (hn : n ≠ 0) (k : Nat) : (n * twoTo k).log2 = n.log2 + k := by
  obtain ⟨low, high⟩ := (log2_eq_iff hn).mp rfl
  have positive := twoTo_pos k
  rw [log2_eq_iff (mul_ne_zero hn (ne_of_gt positive)), twoTo_add, ← mul_assoc]
  exact ⟨mul_le_mul_right _ low, mul_lt_mul_of_pos_right high positive⟩

namespace Binary

variable {f g : Format} {m n : Nat}

/-! ## 1. Rounding what needs no rounding -/

theorem log2Ratio_scaled (hm : m ≠ 0) (q : Int) :
    log2Ratio (m * twoTo q.toNat) (twoTo (-q).toNat) = m.log2 + q := by
  have den : (twoTo (-q).toNat).log2 = (-q).toNat := by
    have positive := twoTo_pos (-q).toNat
    exact (log2_eq_iff (ne_of_gt positive)).mpr ⟨le_refl _, by omega⟩
  have sum : ((m.log2 + q.toNat : Nat) : Int) - ((-q).toNat : Int) = m.log2 + q := by omega
  unfold log2Ratio
  rw [log2_mul_twoTo hm, den]
  rw [sum, if_neg]
  rw [not_lt, mul_assoc, ← twoTo_add, ← twoTo_add]
  have exponents : (-q).toNat + (↑m.log2 + q).toNat =
      m.log2 + (q.toNat + (-(↑m.log2 + q)).toNat) := by omega
  rw [exponents, twoTo_add]
  exact mul_le_mul_right _ ((log2_eq_iff hm).mp rfl).1

theorem nearest_mul (k : Nat) {den : Nat} (hd : 0 < den) : nearest (k * den) den = k := by
  unfold nearest
  simp [Nat.mul_div_cancel k hd, hd]

/-- Rounding to a multiple of the unit that the format has at this size. -/
theorem ofScaled_eq (negative : Bool) {q : Int} (hm : m ≠ 0) (r : Int)
    (hr : r = max (m.log2 + q - f.fractionBits) f.leastExponent)
    (exact : m * twoTo (q - r).toNat = n * twoTo (r - q).toNat) :
    (ofScaled negative m q : Binary f) =
      ⟨negative, min ((r - f.leastExponent).toNat * twoTo f.fractionBits + n) f.infinity⟩ := by
  have nonzero : m * twoTo q.toNat ≠ 0 := mul_ne_zero hm (ne_of_gt (twoTo_pos _))
  -- both sides of the exact quotient, over the same power
  have quotient : m * twoTo q.toNat * twoTo (-r).toNat =
      n * (twoTo (-q).toNat * twoTo r.toNat) := by
    obtain ⟨c, hleft, hright⟩ : ∃ c, q.toNat + (-r).toNat = (q - r).toNat + c ∧
        (-q).toNat + r.toNat = (r - q).toNat + c :=
      ⟨q.toNat + (-r).toNat - (q - r).toNat, by omega, by omega⟩
    rw [mul_assoc, ← twoTo_add, ← twoTo_add, hleft, hright, twoTo_add, twoTo_add,
      ← mul_assoc, exact, mul_assoc]
  unfold ofScaled ofRatio
  rw [if_neg nonzero, log2Ratio_scaled hm, ← hr]
  dsimp only
  rw [quotient, nearest_mul n (mul_pos (twoTo_pos _) (twoTo_pos _))]

/-! ## 2. Numbers that a format holds -/

/-- A finite number is `m * 2 ^ q`, its sign aside. -/
structure Holds (x : Binary f) (m : Nat) (q : Int) : Prop where
  finite : x.pattern < f.infinity
  value : m * twoTo (q - x.exponent).toNat = x.significand * twoTo (x.exponent - q).toNat

theorem pattern_eq (x : Binary f) :
    x.pattern = (x.exponent - f.leastExponent).toNat * twoTo f.fractionBits + x.significand := by
  have split := Nat.div_add_mod x.pattern (twoTo f.fractionBits)
  have shift : (x.exponent - f.leastExponent).toNat = x.field - 1 := by
    unfold exponent
    omega
  rw [shift]
  unfold significand
  dsimp only
  split_ifs with h
  · rw [h, Nat.zero_sub, Nat.zero_mul, Nat.zero_add]
    rw [field] at h
    rw [h] at split
    omega
  · obtain ⟨k, hk⟩ := Nat.exists_eq_succ_of_ne_zero h
    rw [hk, Nat.succ_sub_one]
    rw [field] at hk
    rw [hk, Nat.mul_succ, Nat.mul_comm] at split
    omega

/-- A significand has full length, except that of the evenly spaced small numbers. -/
theorem log2_significand (x : Binary f) (hx : x.significand ≠ 0) :
    (x.field = 0 ∧ x.significand.log2 < f.fractionBits) ∨
      (x.field ≠ 0 ∧ x.significand.log2 = f.fractionBits) := by
  have remainder := mod_lt x.pattern (twoTo_pos f.fractionBits)
  by_cases h : x.field = 0
  · refine .inl ⟨h, (log2_lt hx).mpr ?_⟩
    simp only [significand, h, if_true]
    exact remainder
  · refine .inr ⟨h, (log2_eq_iff hx).mpr ?_⟩
    simp only [significand, h, if_false]
    omega

theorem exponent_eq (x : Binary f) (hx : x.significand ≠ 0) :
    x.exponent = max (x.significand.log2 + x.exponent - f.fractionBits) f.leastExponent := by
  rcases x.log2_significand hx with ⟨h, small⟩ | ⟨h, full⟩
  · have least : x.exponent = f.leastExponent := by simp [exponent, h]
    omega
  · have above : f.leastExponent ≤ x.exponent := by
      unfold exponent
      omega
    omega

namespace Holds

variable {x : Binary f} {m : Nat} {q : Int}

theorem log2_add (h : x.Holds m q) (hm : m ≠ 0) (hx : x.significand ≠ 0) :
    (m.log2 : Int) + q = x.significand.log2 + x.exponent := by
  have logs := congrArg Nat.log2 h.value
  rw [log2_mul_twoTo hm, log2_mul_twoTo hx] at logs
  omega

/-- Rounding gives back what the format holds. -/
theorem ofScaled_eq (h : x.Holds m q) (negative : Bool) :
    ofScaled negative m q = (⟨negative, x.pattern⟩ : Binary f) := by
  have power : ∀ n, twoTo n ≠ 0 := fun n => Nat.ne_of_gt (twoTo_pos n)
  by_cases hm : m = 0
  · have hx : x.significand = 0 := by
      have zero := h.value
      rw [hm, Nat.zero_mul] at zero
      exact (Nat.mul_eq_zero.mp zero.symm).resolve_right (power _)
    have field : x.field = 0 := by
      by_contra field
      simp only [significand, field, if_false] at hx
      have := twoTo_pos f.fractionBits
      omega
    have pattern : x.pattern = 0 := by
      rw [pattern_eq, hx]
      simp [exponent, field]
    rw [pattern, hm]
    simp [ofScaled, ofRatio]
  · have hx : x.significand ≠ 0 := by
      intro hx
      have zero := h.value
      rw [hx, Nat.zero_mul] at zero
      exact hm ((Nat.mul_eq_zero.mp zero).resolve_right (power _))
    rw [Binary.ofScaled_eq negative hm x.exponent ?_ h.value, ← pattern_eq,
      Nat.min_eq_left (Nat.le_of_lt h.finite)]
    rw [h.log2_add hm hx]
    exact exponent_eq x hx

end Holds

/-- The number with a significand of full length and the `k`-th exponent. -/
theorem normal (negative : Bool) (k : Nat) (low : twoTo f.fractionBits ≤ n)
    (high : n < 2 * twoTo f.fractionBits) :
    let y : Binary f := ⟨negative, k * twoTo f.fractionBits + n⟩
    y.significand = n ∧ y.exponent = f.leastExponent + k := by
  intro y
  obtain ⟨d, rfl⟩ := Nat.exists_eq_add_of_le low
  have hd : d < twoTo f.fractionBits := by omega
  have pattern : y.pattern = twoTo f.fractionBits * (k + 1) + d := by
    change k * twoTo f.fractionBits + (twoTo f.fractionBits + d) = _
    ring
  have field : y.field = k + 1 := by
    rw [field, pattern, Nat.mul_add_div (twoTo_pos _), Nat.div_eq_of_lt hd, Nat.add_zero]
  constructor
  · have fraction : y.pattern % twoTo f.fractionBits = d := by
      rw [pattern, Nat.mul_add_mod, Nat.mod_eq_of_lt hd]
    simp only [significand, field, fraction, Nat.succ_ne_zero, if_false]
    exact Nat.add_comm _ _
  · simp only [exponent, field, Nat.add_sub_cancel]

theorem convert_of_finite {x : Binary f} (h : x.pattern < f.infinity) :
    (convert x : Binary g) = ofScaled x.negative x.significand x.exponent := by
  have number : x.isNaN = false := by simp [isNaN, Nat.le_of_lt h]
  have bounded : x.isInfinite = false := by simp [isInfinite, Nat.ne_of_lt h]
  simp [convert, number, bounded]

/-- A number that two formats hold is converted without loss. -/
theorem convert_eq {x : Binary f} {y : Binary g} (hx : x.pattern < f.infinity)
    (h : y.Holds x.significand x.exponent) : convert x = (⟨x.negative, y.pattern⟩ : Binary g) := by
  rw [convert_of_finite hx, h.ofScaled_eq]

end Binary

/-! ## 3. Wider formats -/

/-- A format that has every finite number of another one, in full length. -/
structure Format.Within (f g : Format) : Prop where
  fraction : f.fractionBits ≤ g.fractionBits
  least : g.leastExponent + g.fractionBits ≤ f.leastExponent
  greatest : (f.fractionBits : Int) + f.leastExponent + twoTo f.exponentBits ≤
    g.fractionBits + g.leastExponent + twoTo g.exponentBits

theorem Format.single_within_double : single.Within double := ⟨by decide, by decide, by decide⟩

namespace Binary

variable {f g : Format} {x : Binary f}

theorem exists_holds (wide : f.Within g) (h : x.pattern < f.infinity) (negative : Bool) :
    ∃ y : Binary g, y.negative = negative ∧ y.Holds x.significand x.exponent := by
  obtain ⟨fraction, least, greatest⟩ := wide
  have field : x.field < twoTo f.exponentBits - 1 :=
    (Nat.div_lt_iff_lt_mul (twoTo_pos _)).mpr h
  have exponent : x.exponent = f.leastExponent + ((x.field - 1 : Nat) : Int) := rfl
  by_cases hx : x.significand = 0
  · have finite : 0 < g.infinity := by
      refine Nat.mul_pos ?_ (twoTo_pos _)
      omega
    have zero : (⟨negative, 0⟩ : Binary g).significand = 0 := by simp [significand, Binary.field]
    exact ⟨⟨negative, 0⟩, rfl, finite, by rw [hx, zero, Nat.zero_mul, Nat.zero_mul]⟩
  have length := x.log2_significand hx
  -- the significand is shifted up to full length
  obtain ⟨low, high⟩ := (log2_eq_iff hx).mp rfl
  have shifted : twoTo g.fractionBits =
      twoTo x.significand.log2 * twoTo (g.fractionBits - x.significand.log2) := by
    rw [← twoTo_add, Nat.add_sub_cancel' (by omega)]
  obtain ⟨n, hn⟩ : ∃ n, n = x.significand * twoTo (g.fractionBits - x.significand.log2) := ⟨_, rfl⟩
  have low' : twoTo g.fractionBits ≤ n := by
    rw [hn, shifted]
    exact Nat.mul_le_mul_right _ low
  have high' : n < 2 * twoTo g.fractionBits := by
    rw [hn, shifted, ← Nat.mul_assoc]
    exact Nat.mul_lt_mul_of_pos_right high (twoTo_pos _)
  obtain ⟨k, hk⟩ : ∃ k : Nat,
      (k : Int) = x.significand.log2 + x.exponent - g.fractionBits - g.leastExponent :=
    ⟨(x.significand.log2 + x.exponent - g.fractionBits - g.leastExponent).toNat, by omega⟩
  obtain ⟨significand, exponent'⟩ := normal negative k low' high'
  refine ⟨⟨negative, k * twoTo g.fractionBits + n⟩, rfl, ?_, ?_⟩
  · have room : (k + 2) * twoTo g.fractionBits ≤ g.infinity := Nat.mul_le_mul_right _ (by omega)
    have sum : (k + 2) * twoTo g.fractionBits =
        k * twoTo g.fractionBits + 2 * twoTo g.fractionBits := Nat.add_mul _ _ _
    change k * twoTo g.fractionBits + n < _
    omega
  · rw [significand, exponent']
    have up : (x.exponent - (g.leastExponent + (k : Int))).toNat =
        g.fractionBits - x.significand.log2 := by omega
    have down : (g.leastExponent + (k : Int) - x.exponent).toNat = 0 := by omega
    rw [up, down, hn]
    exact (Nat.mul_one _).symm

/-- A finite number comes back from a wider format as it was. -/
theorem convert_convert (wide : f.Within g) (h : x.isFinite = true) :
    (convert (convert x : Binary g) : Binary f) = x := by
  have finite : x.pattern < f.infinity := by simpa [isFinite] using h
  obtain ⟨y, sign, holds⟩ := exists_holds wide finite x.negative
  have back : x.Holds y.significand y.exponent := ⟨finite, holds.value.symm⟩
  have there : (convert x : Binary g) = y := by rw [convert_eq finite holds, ← sign]
  rw [there, convert_eq holds.finite back, sign]

end Binary

end ShaderGraph.Number
