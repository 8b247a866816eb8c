import Supermartingale.Polynomial.Equation

/-!
# Inequalities between polynomials

A comparison is kept as a polynomial on the left of `>=` and zero on the right: strict relations
are relaxed, `<=` is turned around, and what stands on the right is moved to the left.
-/

namespace Supermartingale

inductive Relation where
  | eq
  | ne
  | gt
  | lt
  | ge
  | le
deriving DecidableEq, Repr

namespace Relation

def all : List Relation := [eq, ne, gt, lt, ge, le]

def sign : Relation → String
  | eq => "=="
  | ne => "!="
  | gt => ">"
  | lt => "<"
  | ge => ">="
  | le => "<="

def ofText (s : String) : Except Error Relation :=
  let s := Text.strip s
  match all.find? (fun r => r.sign == s) with
  | some r => .ok r
  | none => .error (.unknownRelation s)

def negate : Relation → Relation
  | gt => le
  | ge => lt
  | lt => ge
  | le => gt
  | eq => ne
  | ne => eq

def negateRelaxed : Relation → Relation
  | gt => le
  | ge => le
  | lt => ge
  | le => ge
  | eq => ne
  | ne => eq

def relax : Relation → Relation
  | gt => ge
  | lt => le
  | r => r

def swap : Relation → Relation
  | ge => le
  | le => ge
  | gt => lt
  | lt => gt
  | r => r

end Relation

structure Inequality where
  left : Equation
  relation : Relation
  right : Equation

namespace Inequality

def make (left : Equation) (relation : Relation) (right : Equation) : Inequality :=
  let relaxed := relation.relax
  let (left, relation, right) :=
    if relaxed = .le then (right, relaxed.swap, left) else (left, relaxed, right)
  if right.isZero then ⟨left, relation, right⟩ else ⟨left.sub right, relation, Equation.zero⟩

def negate (i : Inequality) : Inequality := make i.left i.relation.negateRelaxed i.right

def smt (i : Inequality) : Except Error String := do
  let l ← i.left.smt
  let r ← i.right.smt
  return "(" ++ i.relation.sign ++ " " ++ l ++ " " ++ r ++ ")"

def detailed (i : Inequality) : String := i.left.text ++ " " ++ i.relation.sign ++ " " ++ i.right.text

/-- The text of an inequality; a right side of several monomials is only hinted at. -/
def text (i : Inequality) : String :=
  let right := if i.right.monomials.length > 1 then "RHS" else i.right.text
  i.left.text ++ " " ++ i.relation.sign ++ " " ++ right

def same (i j : Inequality) : Bool := i.text == j.text

end Inequality

end Supermartingale
