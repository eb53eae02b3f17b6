/-
  The names of things that a problem is written with: the kinds of nodes of an expression, and the
  functions that an objective term may apply.  Error texts and printed trees use these names.
-/

namespace BlockAdmm

/-- The functions of objective terms, applied to the components or to the matrix of an argument. -/
inductive TermKind where
  /-- the constant `0` -/
  | zero
  /-- the sum of the components -/
  | affine
  /-- the sum of the squares -/
  | sumSquare
  /-- the sum of the absolute values -/
  | normL1
  /-- the Euclidean norm -/
  | normL2
  /-- the sum of the negative logarithms -/
  | negLog
  /-- the sum of the reciprocals of positive components -/
  | invPos
  /-- the sum of the exponentials -/
  | exp
  /-- the sum of `log (1 + exp a)` -/
  | logistic
  /-- the negative logarithm of the determinant of a symmetric matrix -/
  | negLogDet
  /-- the sum of the singular values -/
  | normNuclear
  deriving DecidableEq

/-- `TermKind.all`: every function, in the order of their declaration. -/
def TermKind.all : List TermKind :=
  [.zero, .affine, .sumSquare, .normL1, .normL2, .negLog, .invPos, .exp, .logistic, .negLogDet,
   .normNuclear]

def TermKind.name : TermKind → String
  | .zero => "Zero"
  | .affine => "Affine"
  | .sumSquare => "SumSquare"
  | .normL1 => "NormL1"
  | .normL2 => "NormL2"
  | .negLog => "NegLog"
  | .invPos => "InvPos"
  | .exp => "Exp"
  | .logistic => "Logistic"
  | .negLogDet => "NegLogDet"
  | .normNuclear => "NormNuclear"

/-- The kinds of nodes, without what a node of the kind carries. -/
inductive NodeKind where
  | add
  | multiply
  | negate
  | variable
  | constant
  | linearMap
  | reshape
  | zeroCone
  | term
  deriving DecidableEq

def NodeKind.name : NodeKind → String
  | .add => "Add"
  | .multiply => "Multiply"
  | .negate => "Negate"
  | .variable => "Variable"
  | .constant => "Constant"
  | .linearMap => "LinearMap"
  | .reshape => "Reshape"
  | .zeroCone => "ZeroCone"
  | .term => "ProxFunction"

end BlockAdmm
