import NominalTypes.Declaration.Basic

/-!
# Equality of type expressions

Two type expressions are equal when they are built alike from the same declarations. Annotations do
not count. A value that stands for an expression is equal to an equal value; inside of expressions
an undefined number stands for itself.
-/

namespace NominalTypes.Expr

mutual

/-- Equality of parts of type expressions up to annotations. -/
def same : Expr → Expr → Bool
  | named c _, named d _ => c == d
  | array e _, array f _ => same e f
  | applied c es o _, applied d fs p _ => c == d && sameAll es fs && sameOwner o p
  | wildcard us ls _, wildcard us' ls' _ => sameAll us us' && sameAll ls ls'
  | var v _, var w _ => v == w
  | foreign a, foreign b => a.equalPart b
  | _, _ => false

/-- Equality of lists of type expressions, in order. -/
def sameAll : List Expr → List Expr → Bool
  | [], [] => true
  | e :: es, f :: fs => same e f && sameAll es fs
  | _, _ => false

def sameOwner : Option Expr → Option Expr → Bool
  | none, none => true
  | some e, some f => same e f
  | _, _ => false

end

/-- Whether the expression is the null value, which stands for the absence of an expression. -/
def isAbsent : Expr → Bool
  | foreign .null => true
  | _ => false

/-- Equality of type expressions up to annotations. -/
def equal : Expr → Expr → Bool
  | foreign a, foreign b => a.equal b
  | e, f => same e f

end NominalTypes.Expr
