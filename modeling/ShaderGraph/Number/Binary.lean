import ShaderGraph.Number.Power
/-!
Binary floating point numbers, held as a sign and the rest of their bit pattern.

A `Format` fixes how many bits the exponent and the fraction take. Every operation works on exact
integers and rounds once, to the nearest representable number with ties to the even pattern, so
the arithmetic below needs no machine floats and evaluates inside the logic.

* `Binary.ofRatio` is the one place that rounds.
* `Binary.significand` and `Binary.exponent` read a finite number as `significand * 2 ^ exponent`.
* `Binary.convert` moves a number between formats.
-/

namespace ShaderGraph.Number

/-- How many bits the fraction and the exponent of a number take. -/
structure Format where
  fractionBits : Nat
  exponentBits : Nat
deriving DecidableEq, Repr

namespace Format

/-- Numbers of 32 bits. -/
def single : Format := ⟨23, 8⟩

/-- Numbers of 64 bits. -/
def double : Format := ⟨52, 11⟩

/-- The pattern of infinity; smaller patterns are finite and larger ones are not numbers. -/
def infinity (f : Format) : Nat := (twoTo f.exponentBits - 1) * twoTo f.fractionBits

/-- The least exponent: the unit of the smallest numbers is `2 ^ leastExponent`. -/
def leastExponent (f : Format) : Int :=
  2 - (twoTo (f.exponentBits - 1) : Int) - (f.fractionBits : Int)

end Format

/-- A number of format `f`: its sign and its bit pattern without the sign. -/
structure Binary (f : Format) where
  negative : Bool
  pattern : Nat
deriving DecidableEq, Repr

/-- Single precision numbers, the values that shaders work with. -/
abbrev Single := Binary Format.single

/-- Double precision numbers, the values that documents hold. -/
abbrev Double := Binary Format.double

namespace Binary

variable {f g : Format}

instance : Inhabited (Binary f) := ⟨⟨false, 0⟩⟩

def zero : Binary f := ⟨false, 0⟩

def infinite (negative : Bool) : Binary f := ⟨negative, f.infinity⟩

def nan : Binary f := ⟨false, f.infinity + 1⟩

def isFinite (x : Binary f) : Bool := x.pattern < f.infinity

def isInfinite (x : Binary f) : Bool := x.pattern == f.infinity

def isNaN (x : Binary f) : Bool := f.infinity < x.pattern

def isZero (x : Binary f) : Bool := x.pattern == 0

def neg (x : Binary f) : Binary f := ⟨!x.negative, x.pattern⟩

/-- The pattern read with the sign as its top bit. -/
def ofBits (bits : Nat) : Binary f :=
  let half := twoTo (f.fractionBits + f.exponentBits)
  ⟨bits / half % 2 == 1, bits % half⟩

/-- The exponent field of the pattern. Patterns with field zero are the evenly spaced small
numbers; they share the exponent of field one. -/
def field (x : Binary f) : Nat := x.pattern / twoTo f.fractionBits

/-- The integer `m` of a finite `x = m * 2 ^ q`. -/
def significand (x : Binary f) : Nat :=
  let fraction := x.pattern % twoTo f.fractionBits
  if x.field = 0 then fraction else fraction + twoTo f.fractionBits

/-- The exponent `q` of a finite `x = m * 2 ^ q`. -/
def exponent (x : Binary f) : Int :=
  f.leastExponent + ((x.field - 1 : Nat) : Int)

/-- `num / den` to the nearest integer, ties to the even one. -/
def nearest (num den : Nat) : Nat :=
  let q := num / den
  let r := num % den
  if 2 * r < den then q
  else if den < 2 * r then q + 1
  else q + q % 2

/-- The greatest `e` with `2 ^ e ≤ num / den`, for positive `num` and `den`. -/
def log2Ratio (num den : Nat) : Int :=
  let e : Int := (Nat.log2 num : Int) - (Nat.log2 den : Int)
  if num * twoTo (-e).toNat < den * twoTo e.toNat then e - 1 else e

/-- The nearest number to `num / den` with the given sign. A result of at least half a unit above
the largest finite number is infinite. Counting patterns upward from the first one with exponent
`q` carries a rounded significand over into the next exponent by itself. -/
def ofRatio (negative : Bool) (num den : Nat) : Binary f :=
  if num = 0 then ⟨negative, 0⟩
  else
    let q := max (log2Ratio num den - f.fractionBits) f.leastExponent
    let m := nearest (num * twoTo (-q).toNat) (den * twoTo q.toNat)
    let pattern := (q - f.leastExponent).toNat * twoTo f.fractionBits + m
    ⟨negative, min pattern f.infinity⟩

/-- The nearest number to `m * 2 ^ q`. -/
def ofScaled (negative : Bool) (m : Nat) (q : Int) : Binary f :=
  ofRatio negative (m * twoTo q.toNat) (twoTo (-q).toNat)

def ofNat (n : Nat) : Binary f := ofRatio false n 1

def ofInt (n : Int) : Binary f := ofRatio (n < 0) n.natAbs 1

/-- The nearest number of another format. -/
def convert (x : Binary f) : Binary g :=
  if x.isNaN then nan
  else if x.isInfinite then infinite x.negative
  else ofScaled x.negative x.significand x.exponent

/-- The signed significand of a finite number over the exponent `q`, at most its own. -/
def scaledTo (x : Binary f) (q : Int) : Int :=
  let m : Int := x.significand * twoTo (x.exponent - q).toNat
  if x.negative then -m else m

def add (x y : Binary f) : Binary f :=
  if x.isNaN || y.isNaN then nan
  else if x.isInfinite then
    if y.isInfinite && x.negative != y.negative then nan else x
  else if y.isInfinite then y
  else
    let q := min x.exponent y.exponent
    let sum := x.scaledTo q + y.scaledTo q
    if sum = 0 then ⟨x.negative && y.negative, 0⟩
    else ofScaled (sum < 0) sum.natAbs q

def mul (x y : Binary f) : Binary f :=
  let negative := x.negative != y.negative
  if x.isNaN || y.isNaN then nan
  else if x.isInfinite || y.isInfinite then
    if x.isZero || y.isZero then nan else infinite negative
  else ofScaled negative (x.significand * y.significand) (x.exponent + y.exponent)

/-- Division by a finite number that is not zero. -/
def div (x y : Binary f) : Binary f :=
  let negative := x.negative != y.negative
  if x.isNaN || y.isNaN then nan
  else if x.isInfinite then infinite negative
  else
    let q := x.exponent - y.exponent
    ofRatio negative (x.significand * twoTo q.toNat) (y.significand * twoTo (-q).toNat)

instance : Add (Binary f) := ⟨add⟩
instance : Mul (Binary f) := ⟨mul⟩
instance : Neg (Binary f) := ⟨neg⟩

/-- Equality of numbers: the two zeros are equal and a value that is not a number equals none. -/
def same (x y : Binary f) : Bool :=
  !x.isNaN && !y.isNaN && (x == y || (x.isZero && y.isZero))

/-- The integer part, held inside `lo .. hi`; zero for what is not a number. -/
def toIntWithin (x : Binary f) (lo hi : Int) : Int :=
  if x.isNaN then 0
  else if x.isInfinite then if x.negative then lo else hi
  else
    let n : Int := x.significand * twoTo x.exponent.toNat / twoTo (-x.exponent).toNat
    max lo (min hi (if x.negative then -n else n))

end Binary

/-- A decimal literal `num / den` as a single precision number. -/
def Single.ratio (num : Nat) (den : Nat) : Single := Binary.ofRatio false num den

def Single.one : Single := Binary.ofNat 1

example : (Single.ratio 1 10).pattern = 0x3dcccccd := by decide
example : (Binary.convert (Single.ratio 1 10) : Double).pattern = 0x3fb99999a0000000 := by decide
example : (Binary.ofNat (twoTo 128) : Single) = Binary.infinite false := by decide

end ShaderGraph.Number
