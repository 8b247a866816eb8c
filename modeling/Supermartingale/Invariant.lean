import Supermartingale.Certificate
import Supermartingale.Model

/-!
# Invariants

An invariant over-approximates the states that a run can be in, automaton state by automaton state.
It is sought together with the certificate, or left out: then it always holds.
-/

namespace Supermartingale

structure InvariantTemplate where
  states : Value
  actions : Value
  automatonStates : Nat
  degree : Value
  names : List String
  family : Family

namespace InvariantTemplate

def make (states actions degree : Value) (automatonStates : Nat) (shelf : Powers.Shelf) :
    Except Error (InvariantTemplate × Powers.Shelf) := do
  let names := Powers.stateNames (← states.count)
  let (rows, shelf) ← shelf.get degree states
  let family ← Family.make names "I" automatonStates rows
  return (⟨states, actions, automatonStates, degree, names, family⟩, shelf)

def text (t : InvariantTemplate) : String :=
  "Invariant(|S|=" ++ t.states.toText ++ ", |A|=" ++ t.actions.toText ++ ", |Q|=" ++
    toString t.automatonStates ++ ", degree=" ++ t.degree.toText ++ ")"

def detailed (t : InvariantTemplate) : String :=
  t.text ++ "\n" ++ String.intercalate "\n" (t.family.equations.map (fun (k, e) =>
    "  - " ++ Text.padRight 5 ("(q" ++ k ++ ")") ++ ": " ++ e.text))

end InvariantTemplate

inductive Invariant where
  | sought (t : InvariantTemplate)
  | trivial

namespace Invariant

def constants : Invariant → List String
  | sought t => t.family.constants
  | trivial => []

def holdsAt (i : Invariant) (state : String) : Except Error Inequality :=
  match i with
  | sought t => do return Inequality.make (← t.family.get state) .ge (← Equation.ofText "0")
  | trivial => do return Inequality.make (← Equation.ofText "1") .ge (← Equation.ofText "0")

end Invariant

end Supermartingale

/-! ## Conditions

An invariant holds in the initial states, and every step from where it holds leads to where it
holds, whatever the disturbance is. -/

namespace Supermartingale.InvariantTemplate

def initial (t : InvariantTemplate) (m : Model) : Except Error (List Constraint) := do
  let zero ← Equation.ofText "0"
  let start := Inequality.make (← t.family.get m.automaton.start) .ge zero
  let conclusion ← Formula.conjoin (.ofInequality start)
  let premise ← Formula.conjoin (.ofInequalities (m.space ++ m.initial))
  return [← Constraint.imply t.names premise conclusion]

/-- The actions of all policies that may act in a state: in an accepting state those of all
acceptance sets. -/
def possibleActions (m : Model) (p : DecomposedPolicy) (s : State) :
    Except Error (List (List (String × Equation))) := do
  if p.isIdle then return [[]]
  let policies ←
    if s.isAccepting then m.automaton.sets.mapM (fun n => p.get .buchi (some n))
    else (p.get .reach).map (fun q => [q])
  return if policies.isEmpty then [[]] else policies.map Policy.call

def induction (t : InvariantTemplate) (m : Model) (p : DecomposedPolicy) : Except Error (List Constraint) := do
  let zero ← Equation.ofText "0"
  let names := t.names ++ (← m.noise.names)
  let noise ← m.noise.inequalities
  m.forEachStep (fun _ => true) (fun piece s => do
    let held := Inequality.make (← t.family.get (toString s.id)) .ge zero
    let nexts := (← possibleActions m p s).map piece.nextUnder
    let targets ← s.transitions.mapM (fun tr => do
      return (tr, ← t.family.get (toString tr.destination)))
    targets.mapM (fun (tr, target) => do
      let premise ← Formula.conjoin (.list ((m.space ++ noise ++ piece.condition).map .inequality ++
        [m.guarded tr (.ofInequality held)]))
      let kept ← nexts.mapM (fun next => do
        return Inequality.make (← Equation.ofText (target.after next)) .ge zero)
      Constraint.imply names premise (← Formula.conjoin (.ofInequalities kept))))

end Supermartingale.InvariantTemplate
