import ShaderGraph.Number.Binary
/-!
Decimal text of a binary number with the fewest digits that read back as it.

The reals that round to `m * 2 ^ q` form an interval around it, its ends included when `m` is
even. For one digit, two digits and so on, `Decimal.shortest` takes the number's two neighbours on
the decimal grid of that many digits; the first grid with a neighbour inside the interval gives
the digits. Where both neighbours are inside, the nearer one is taken and a `Tie` settles a draw.

A `Layout` holds the decisions of one text format: when the number is written with an exponent,
and how.
-/

namespace ShaderGraph.Number

/-- Which neighbour an exact draw goes to. -/
inductive Tie where
  | up
  | even
deriving DecidableEq, Repr

/-- The value `digits * 10 ^ exponent`. -/
structure Decimal where
  digits : Nat
  exponent : Int
deriving DecidableEq, Repr

namespace Decimal

/-- The interval of reals that round to a positive number, over a common denominator: the ends,
the number itself, and whether the ends belong to it. -/
structure Span where
  low : Nat
  value : Nat
  high : Nat
  closed : Bool

/-- The interval in quarters of the unit of `x`: half a unit on either side, but a quarter below
where the numbers become denser. -/
def Span.of {f : Format} (x : Binary f) : Span :=
  let m := x.significand
  let dense := x.pattern % twoTo f.fractionBits = 0 ∧ 1 < x.field
  ⟨4 * m - (if dense then 1 else 2), 4 * m, 4 * m + 2, m % 2 = 0⟩

/-- The neighbour of `value` among the multiples of `unit` inside the interval, as a multiple. -/
def Span.onGrid (s : Span) (unit : Nat) (tie : Tie) : Option Nat :=
  let d := s.value / unit
  let r := s.value % unit
  let below := if s.closed then s.low ≤ d * unit else s.low < d * unit
  let above := if s.closed then (d + 1) * unit ≤ s.high else (d + 1) * unit < s.high
  if below ∧ 0 < d then
    if above then
      if 2 * r < unit then some d
      else if unit < 2 * r then some (d + 1)
      else match tie with
        | .up => some (d + 1)
        | .even => some (d + d % 2)
    else some d
  else if above then some (d + 1)
  else none

/-- Scales the interval by `10 ^ -k`, so that the grid of that power becomes the integers; the
second part is the integer unit. The interval is in units of `2 ^ q`. -/
def Span.scaled (s : Span) (q k : Int) : Span × Nat :=
  let factor := twoTo q.toNat * tenTo (-k).toNat
  (⟨s.low * factor, s.value * factor, s.high * factor, s.closed⟩, tenTo k.toNat * twoTo (-q).toNat)

/-- The decimal exponent of the leading digit of `value * 2 ^ q`: an estimate from the binary
exponent, mended by one. -/
def leading (value : Nat) (q : Int) : Int :=
  let bits : Int := (Nat.log2 value : Int) + q
  let e := Int.fdiv (bits * 1233) 4096
  let atLeast (k : Int) : Bool :=
    tenTo k.toNat * twoTo (-q).toNat ≤ value * twoTo q.toNat * tenTo (-k).toNat
  if !atLeast e then e - 1 else if atLeast (e + 1) then e + 1 else e

/-- Tries grids with `count`, `count + 1`, … digits, at most `tries` of them. -/
def search (s : Span) (q : Int) (lead : Int) (tie : Tie) : Nat → Nat → Decimal
  | 0, count => ⟨s.value, lead - count⟩
  | tries + 1, count =>
    let k := lead + 1 - count
    let (scaled, unit) := s.scaled q k
    match scaled.onGrid unit tie with
    | some d => ⟨d, k⟩
    | none => search s q lead tie tries (count + 1)

/-- Removes trailing zeros, at most `fuel` of them. -/
def trim : Nat → Decimal → Decimal
  | 0, d => d
  | fuel + 1, d =>
    if d.digits % 10 = 0 ∧ d.digits ≠ 0 then trim fuel ⟨d.digits / 10, d.exponent + 1⟩ else d

/-- The fewest digits that read back as the finite number `x`; of two such values the nearer.
Seventeen digits are enough for every format here. -/
def shortest {f : Format} (x : Binary f) (tie : Tie) : Decimal :=
  if x.isZero then ⟨0, 0⟩
  else
    let s := Span.of x
    let q := x.exponent - 2
    trim 20 (search s q (leading s.value q) tie 17 1)

end Decimal

/-- The decisions of a text format for numbers. -/
structure Layout where
  /-- The least decimal exponent that is still written without an exponent. -/
  least : Int
  /-- The first decimal exponent that is again written with an exponent. -/
  bound : Int
  /-- Whether an exponent that is not negative carries a plus sign. -/
  plus : Bool
  tie : Tie

namespace Layout

/-- Literals of shader code and of exported code: `1.0`, `0.0001`, `1e16`, `1.5e-7`. -/
def literal : Layout := ⟨-4, 16, false, .up⟩

/-- Numbers of documents: `1.0`, `0.00001`, `1e+16`, `1.25e-7`. -/
def document : Layout := ⟨-5, 16, true, .even⟩

def zeros (n : Nat) : String := String.ofList (List.replicate n '0')

/-- The digits with a point after the first `n` of them; at least one digit stands on each side. -/
def pointed (digits : String) (n : Int) : String :=
  let len := digits.length
  if n ≤ 0 then "0." ++ zeros (-n).toNat ++ digits
  else if (len : Int) ≤ n then digits ++ zeros (n.toNat - len) ++ ".0"
  else
    String.ofList (digits.toList.take n.toNat) ++ "." ++ String.ofList (digits.toList.drop n.toNat)

/-- One digit, the others after a point, and the exponent. -/
def scientific (digits : String) (lead : Int) (plus : Bool) : String :=
  let mantissa := match digits.toList with
    | [] => "0"
    | [c] => c.toString
    | c :: rest => c.toString ++ "." ++ String.ofList rest
  mantissa ++ "e" ++ (if plus && 0 ≤ lead then "+" else "") ++ toString lead

/-- The text of a finite number. -/
def finite {f : Format} (l : Layout) (x : Binary f) : String :=
  let sign := if x.negative then "-" else ""
  let d := Decimal.shortest x l.tie
  let digits := toString d.digits
  let lead : Int := d.exponent + digits.length - 1
  sign ++
    if x.isZero then "0.0"
    else if l.least ≤ lead ∧ lead < l.bound then pointed digits (lead + 1)
    else scientific digits lead l.plus

/-- The text of any number, with the usual words for what is not finite. -/
def write {f : Format} (l : Layout) (x : Binary f) : String :=
  if x.isNaN then "NaN"
  else if x.isInfinite then if x.negative then "-inf" else "inf"
  else l.finite x

end Layout

/-- A single precision number as it is shown to people. -/
def Single.text (x : Single) : String := Layout.literal.write x

/-- A literal that every shader language reads: what is not finite is written as zero. -/
def Single.literal (x : Single) : String :=
  if x.isFinite then Layout.literal.finite x else "0.0"

end ShaderGraph.Number
