/-
  Expressions and problems as text: one line for each node, two blanks deeper for each level.
-/
import BlockAdmm.Scalar
import BlockAdmm.Expr.Basic
import BlockAdmm.Text.Quoted

namespace BlockAdmm

open Scalar Text

variable {R : Type} [Scalar R]

/-- `fields name parts`: a name with named parts between braces. -/
def fields (name : String) (parts : List (String × String)) : String :=
  name ++ " \x7b " ++ ", ".intercalate (parts.map fun p => p.1 ++ ": " ++ p.2) ++ " \x7d"

/-- `call name parts`: a name with parts between parentheses. -/
def call (name : String) (parts : List String) : String :=
  name ++ "(" ++ ", ".intercalate parts ++ ")"

def ConstantValue.debug : ConstantValue R → String
  | .scalar v => call "Scalar" [Scalar.debug v]
  | .data key => call "Data" [quoted key]

def Constant.debug (c : Constant R) : String :=
  fields "Constant" [("m", toString c.m), ("n", toString c.n), ("value", c.value.debug)]

def MapDesc.debug : MapDesc R → String
  | .dense c => call "Dense" [c.debug]
  | .sparse c => call "Sparse" [c.debug]
  | .diagonal c => call "Diagonal" [c.debug]
  | .scalar n alpha => fields "Scalar" [("n", toString n), ("alpha", Scalar.debug alpha)]
  | .kronecker a b => call "Kronecker" [a.debug, b.debug]
  | .transpose a => call "Transpose" [a.debug]

def TermFunction.debug (f : TermFunction R) : String :=
  fields "ProxFunction"
    [("prox_type", f.kind.name), ("alpha", Scalar.debug f.alpha),
     ("epigraph", if f.epigraph then "true" else "false")]

def ExprKind.label : ExprKind R → String
  | .variable id => call "Variable" [id]
  | .constant c => call "Constant" [c.value.debug]
  | .linearMap d => call "LinearMap" [d.debug]
  | .term f => f.debug
  | kind => kind.tag.name

namespace Expr

mutual

/-- `e.lines depth`: the line of the node, and those of its arguments deeper. -/
def lines : Expr R → Nat → List String
  | .node kind m n args, depth =>
    (String.ofList (List.replicate (2 * depth) ' ') ++ kind.label ++ " ("
      ++ SolverError.times (m, n) ++ ")\n") :: linesList args (depth + 1)

def linesList : List (Expr R) → Nat → List String
  | [], _ => []
  | e :: es, depth => e.lines depth ++ linesList es depth

end

/-- `e.tree`: the expression as a tree of lines. -/
def tree (e : Expr R) : String := String.join (e.lines 0)

end Expr

/-- `p.text`: the objective and the constraints of a problem. -/
def Problem.text (p : Problem R) : String :=
  "problem " ++ p.id ++ "\nobjective:\n" ++ p.objective.tree
    ++ String.join (p.constraints.zipIdx.map fun ci =>
      "constraint " ++ toString ci.2 ++ ":\n" ++ ci.1.tree)

end BlockAdmm
