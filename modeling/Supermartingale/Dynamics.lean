import Supermartingale.Space
import Supermartingale.Value

/-!
# Piecewise polynomial dynamics

The next state is given piece by piece: where the condition of a piece holds, every state
variable takes the value of a polynomial over states, actions and disturbances.
-/

namespace Supermartingale

structure Piece where
  condition : List Inequality
  transforms : List Equation

def Equation.ofValue : Value → Except Error Equation
  | .text s => Equation.ofText s
  | .number n => Equation.ofNumber n
  | _ => .error .notPolynomial

namespace Piece

def read (condition : String) (transforms : List String) : Except Error Piece := do
  let condition ← Space.read condition
  let transforms ← transforms.mapM Equation.ofText
  return ⟨condition, transforms⟩

def ofValue (v : Value) : Except Error Piece := do
  let condition ← Space.read (← (← v.item "condition").toTextOnly)
  let transforms ← (← (← v.item "transforms").members).mapM Equation.ofValue
  return ⟨condition, transforms⟩

def conditionText (p : Piece) : String := String.intercalate " and " (p.condition.map Inequality.detailed)

def next (p : Piece) (values : List (String × String)) : List (String × String) :=
  p.transforms.mapIdx (fun i e => ("S" ++ toString (i + 1), e.substitute values))

end Piece

inductive Piece.Given where
  | piece (p : Piece)
  | other (v : Value)

structure Dynamics where
  states : Value
  pieces : List Piece

namespace Dynamics

def stranger? : List Piece.Given → Option Value
  | [] => none
  | .piece _ :: gs => stranger? gs
  | .other v :: _ => some v

def piecesOf (gs : List Piece.Given) : List Piece :=
  gs.filterMap (fun g => match g with
    | .piece p => some p
    | .other _ => none)

/-- Dynamics from pieces: there is at least one, and each gives all state variables. -/
def make (states : Value) (given : List Piece.Given) : Except Error Dynamics :=
  if given.isEmpty then .error .noPieces
  else match stranger? given with
    | some v => .error (.notAPiece v.sortText)
    | none =>
      let pieces := piecesOf given
      if pieces.all (fun p => states.isInt p.transforms.length) then .ok ⟨states, pieces⟩
      else .error (.pieceMismatch pieces.length states.toText)

end Dynamics

end Supermartingale
