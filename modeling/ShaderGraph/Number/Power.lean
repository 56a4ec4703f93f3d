/-!
Powers of two and of ten, and the ranges of integers of a fixed width.
-/

namespace ShaderGraph.Number

/-- Two to the power of `n`. -/
def twoTo (n : Nat) : Nat := Nat.pow 2 n

/-- Ten to the power of `n`. -/
def tenTo (n : Nat) : Nat := Nat.pow 10 n

theorem twoTo_succ (n : Nat) : twoTo (n + 1) = 2 * twoTo n := Nat.mul_comm _ _

theorem twoTo_pos (n : Nat) : 0 < twoTo n := by
  induction n with
  | zero => exact Nat.one_pos
  | succ n ih =>
    rw [twoTo_succ]
    omega

/-- The least signed integer of 32 bits. -/
def least32 : Int := -(twoTo 31 : Nat)

/-- The greatest signed integer of 32 bits. -/
def greatest32 : Int := (twoTo 31 : Nat) - 1

end ShaderGraph.Number
