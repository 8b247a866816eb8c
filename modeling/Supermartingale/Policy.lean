import Supermartingale.Polynomial.Powers

/-!
# Control policies

A policy gives every action variable a polynomial over the state variables.
-/

namespace Supermartingale

inductive PolicyMode where
  | verification
  | synthesis
deriving DecidableEq, Repr

namespace PolicyMode

def named : List (String × PolicyMode) := [("VERIFICATION", verification), ("SYNTHESIS", synthesis)]

def ofName (s : String) : Except Error PolicyMode :=
  match named.find? (·.1 == s) with
  | some (_, m) => .ok m
  | none => .error (.unknownPolicyMode s)

def text : PolicyMode → String
  | verification => "verification"
  | synthesis => "synthesis"

end PolicyMode

/-- What a policy is for: reaching the accepting states, or visiting them again and again. -/
inductive PolicyGoal where
  | reach
  | buchi
  | unknown
deriving DecidableEq, Repr

namespace PolicyGoal

def named : List (String × PolicyGoal) := [("REACH", reach), ("BUCHI", buchi), ("UNKOWN", unknown)]

def ofName (s : String) : Except Error PolicyGoal :=
  match named.find? (·.1 == s) with
  | some (_, g) => .ok g
  | none => .error (.unknownPolicyGoal s)

def text : PolicyGoal → String
  | reach => "reach  "
  | buchi => "buchi  "
  | unknown => "unknown"

end PolicyGoal

structure Policy where
  goal : PolicyGoal
  states : Value
  actions : Value
  mode : PolicyMode
  transitions : List Equation
  found : List String

namespace Policy

def actionStem (stem : String) (i : Nat) : String := stem ++ "_" ++ toString i

def synthesise (goal : PolicyGoal) (actions states degree : Value) (stem : String)
    (shelf : Powers.Shelf) : Except Error (Policy × Powers.Shelf) := do
  if stem.isEmpty then throw .policyWithoutStem
  let (rows, shelf) ← shelf.get degree states
  let names := Powers.stateNames (← states.count)
  let stems := (List.range (← actions.count)).map (fun i => actionStem stem (i + 1))
  let transitions ← stems.mapM (fun s => Powers.equation names s rows)
  let found := (stems.flatMap (fun s => Powers.constants s rows)).eraseDups
  return (⟨goal, states, actions, .synthesis, transitions, found⟩, shelf)

/-- A policy of given polynomial texts; without any, or with a wrong number of them, one to be
synthesised, and the texts are not looked at. -/
def make (goal : PolicyGoal) (actions states degree : Value) (given : List String)
    (stem : String) (shelf : Powers.Shelf) : Except Error (Policy × Powers.Shelf) := do
  if actions.isInt 0 then throw .policyWithoutActions
  if given.isEmpty || !actions.isInt given.length then
    synthesise goal actions states degree stem shelf
  else
    let transitions ← given.mapM Equation.ofText
    return (⟨goal, states, actions, .verification, transitions, []⟩, shelf)

def update (p : Policy) (transitions : List Equation) : Policy := { p with transitions }

/-- Looks for unknown constants. Those of a policy to be synthesised are known from the start; in
a given policy the constants that were found before are kept. -/
def collect (p : Policy) : Policy :=
  match p.mode with
  | .synthesis => p
  | .verification => { p with found := (p.found ++ p.transitions.flatMap Equation.constants).eraseDups }

def text (p : Policy) : String := p.goal.text ++ ": " ++ p.states.toText ++ " -> " ++ p.actions.toText

def call (p : Policy) : List (String × Equation) := p.transitions.mapIdx (fun i e => ("A" ++ toString (i + 1), e))

end Policy

/-! ## Decomposed policies -/

structure DecomposedPolicy where
  actions : Value
  states : Value
  policies : List Policy
  limits : List (String × Value)
  constants : List String

namespace DecomposedPolicy

def parts (sets : Nat) : List (String × PolicyGoal) :=
  ("Pa", .reach) :: (List.range sets).map (fun i => ("Pb" ++ toString i, .buchi))

def synthesiseAll (actions states degree : Value) :
    List (String × PolicyGoal) → Powers.Shelf → Except Error (List Policy × Powers.Shelf)
  | [], shelf => .ok ([], shelf)
  | (stem, goal) :: rest, shelf => do
    let (p, shelf) ← Policy.make goal actions states degree [] stem shelf
    let (ps, shelf) ← synthesiseAll actions states degree rest shelf
    return (p :: ps, shelf)

/-- The decomposed policy that a configuration describes. Without actions there are no policies,
and policies cannot be given. -/
def make (actions states degree : Value) (sets : Nat) (given : Value)
    (limits : List (String × Value)) (shelf : Powers.Shelf) : Except Error (DecomposedPolicy × Powers.Shelf) := do
  if actions.isInt 0 then return (⟨actions, states, [], limits, []⟩, shelf)
  let given ← given.members
  if given.any (fun v => !v.isEmpty) then throw .givenPolicies
  let (policies, shelf) ← synthesiseAll actions states degree (parts sets) shelf
  return (⟨actions, states, policies, limits, (policies.flatMap (·.found)).eraseDups⟩, shelf)

def limit (p : DecomposedPolicy) (name : String) : Value := (p.limits.find? (·.1 == name)).elim .null (·.2)

/-- The position of the policy for a goal; the number chooses among those for acceptance sets. -/
def position (p : DecomposedPolicy) (goal : PolicyGoal) (number : Option Int) : Except Error Nat :=
  match goal with
  | .reach => .ok 0
  | .buchi =>
    match number with
    | none => if 2 < p.policies.length then .error .policyNumberMissing else .ok 1
    | some n =>
      if n < 0 || (p.policies.length : Int) - 1 ≤ n then .error (.unknownPolicyNumber n)
      else .ok (n.toNat + 1)
  | .unknown => .error .policyGoalMissing

def get (p : DecomposedPolicy) (goal : PolicyGoal) (number : Option Int := none) :
    Except Error Policy := do
  let i ← p.position goal number
  match p.policies[i]? with
  | some policy => return policy
  | none => throw .missingPosition

def isIdle (p : DecomposedPolicy) : Bool := p.actions.isInt 0

/-- The polynomials of the actions in an automaton state: in an accepting state those of the first
acceptance set. -/
def act (p : DecomposedPolicy) (accepting : Bool) : Except Error (List (String × Equation)) := do
  if p.isIdle then return []
  let policy ← if accepting then p.get .buchi (some 0) else p.get .reach
  return policy.call

def text (p : DecomposedPolicy) : String :=
  "Decomposed control policy: " ++ p.states.toText ++ " -> " ++ p.actions.toText ++ " (x" ++
    toString p.policies.length ++ ")\n" ++
    String.intercalate "\n" (p.policies.map (fun q => "\t- " ++ q.text))

end DecomposedPolicy

end Supermartingale
