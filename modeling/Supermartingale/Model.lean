import Supermartingale.Automaton
import Supermartingale.Constraint
import Supermartingale.Dynamics
import Supermartingale.Noise
import Supermartingale.Policy

/-!
# Models

A model is a stochastic dynamical system together with the automaton of its specification.
-/

namespace Supermartingale

structure Model where
  space : List Inequality
  initial : List Inequality
  dynamics : Dynamics
  noise : Noise
  automaton : Automaton

def Equation.after (e : Equation) (next : Text.Table) : String := Text.replaceAll " " "" (e.substitute next)

namespace Noise

/-- The expectation of a polynomial text over the disturbance: every power of a disturbance
variable is replaced by its moment. -/
def expect (noise : Noise) (s : String) : Except Error Equation := do
  Equation.ofText (← Text.replaceFirst (← noise.expectations usualOrder) s)

def atLower (noise : Noise) (s : String) : Except Error Equation := do
  let bounds ← noise.bounds
  Equation.ofText (← Text.replaceFirst (bounds.map (fun (d, a, _) => (d, a))) s)

def atUpper (noise : Noise) (s : String) : Except Error Equation := do
  let bounds ← noise.bounds
  Equation.ofText (← Text.replaceFirst (bounds.map (fun (d, _, b) => (d, b))) s)

def inequalities (noise : Noise) : Except Error (List Inequality) := do
  let bounds ← noise.bounds
  let pairs ← bounds.mapM (fun (d, a, b) => do
    let lower := Inequality.make (← Equation.ofText d) .ge (← Equation.ofText a)
    let upper := Inequality.make (← Equation.ofText d) .le (← Equation.ofText b)
    return [lower, upper])
  return pairs.flatten

def names (noise : Noise) : Except Error (List String) := do
  return (List.range (← noise.dimension.count)).map variableName

end Noise

namespace Piece

def nextUnder (p : Piece) (actions : List (String × Equation)) : Text.Table :=
  p.next (actions.map (fun (a, e) => (a, e.text)))

end Piece

namespace Model

def guard (m : Model) (t : Transition) : Guard := ⟨t.label, m.automaton.lookup⟩

def guarded (m : Model) (t : Transition) (body : Operand) : Formula := .guarded (m.guard t) body (.known .conjunction)

/-- What a condition says for every piece of the dynamics and every state of the automaton that is
chosen, in this order. -/
def forEachStep (m : Model) (chosen : State → Bool) (condition : Piece → State → Except Error (List Constraint)) :
    Except Error (List Constraint) := do
  let parts ← m.dynamics.pieces.mapM (fun p => do
    let rows ← (m.automaton.states.filter chosen).mapM (condition p)
    return rows.flatten)
  return parts.flatten

end Model

end Supermartingale
