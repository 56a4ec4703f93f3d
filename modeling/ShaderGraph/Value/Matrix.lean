import ShaderGraph.Number.Shortest
/-!
Vectors and four by four matrices of single precision numbers, the latter column by column.
-/

namespace ShaderGraph

open Number

/-- The four columns of a matrix, one after another. -/
abbrev Matrix := Vector Single 16

namespace Matrix

def zero : Matrix := Vector.replicate 16 Binary.zero

def identity : Matrix :=
  Vector.ofFn fun i : Fin 16 => if i.val % 5 = 0 then Single.one else Binary.zero

/-- Row `r` of column `c`. -/
def entry (m : Matrix) (c r : Fin 4) : Single := m.get ⟨c.val * 4 + r.val, by omega⟩

/-- The sum of a row of `a` times a column of `b`, from left to right and starting at zero. -/
def dot (a b : Matrix) (c r : Fin 4) : Single :=
  (List.finRange 4).foldl (fun sum k => sum + a.entry k r * b.entry c k) Binary.zero

/-- The product of two matrices. -/
def mul (a b : Matrix) : Matrix :=
  Vector.ofFn fun i : Fin 16 => dot a b ⟨i.val / 4, by omega⟩ ⟨i.val % 4, by omega⟩

instance : Mul Matrix := ⟨mul⟩

end Matrix

end ShaderGraph
