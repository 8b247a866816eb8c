import Supermartingale.Certificate.Step
import Supermartingale.Input
import Supermartingale.Query
import Supermartingale.Specification

/-!
# Runs

A run takes an input through the stages: it reads the input, sets up the system, the automaton and
the policy, asks for an invariant if it is to, makes the templates of the certificate, and hands the
constraints on them to the solver.
-/

namespace Supermartingale

/-! ## Settings -/

structure Settings where
  degree : Value
  probability : Value
  theoremName : Value
  solverName : Value

namespace Settings

def theorems : List String := ["handelman", "putinar", "farkas"]

def solvers : List String := ["z3", "mathsat"]

def make (degree probability theoremName solverName : Value) : Except Error Settings := do
  let d ← degree.toNumber
  if d.less (.int 1) then throw .degreeTooSmall
  if !theorems.any theoremName.isText then
    throw (.unknownTheorem theoremName.toText (Text.quotedList theorems))
  if !solvers.any solverName.isText then
    throw (.unknownSolver solverName.toText (Text.quotedList solvers))
  return ⟨degree, probability, theoremName, solverName⟩

end Settings

/-! ## Stages -/

inductive Stage where
  | parseInput
  | prepareRequirements
  | constructSystemStates
  | policyPreparation
  | synthesizeInvariants
  | synthesizeTemplate
  | generateConstraints
  | prepareSolverInputs
  | runSolver
  | done
deriving DecidableEq, Repr

namespace Stage

def all : List Stage :=
  [parseInput, prepareRequirements, constructSystemStates, policyPreparation, synthesizeInvariants,
    synthesizeTemplate, generateConstraints, prepareSolverInputs, runSolver, done]

def number : Stage → Nat
  | parseInput => 0
  | prepareRequirements => 1
  | constructSystemStates => 2
  | policyPreparation => 3
  | synthesizeInvariants => 4
  | synthesizeTemplate => 5
  | generateConstraints => 6
  | prepareSolverInputs => 7
  | runSolver => 8
  | done => 9

def name : Stage → String
  | parseInput => "PARSE_INPUT"
  | prepareRequirements => "PREPARE_REQUIREMENTS"
  | constructSystemStates => "CONSTRUCT_SYSTEM_STATES"
  | policyPreparation => "POLICY_PREPARATION"
  | synthesizeInvariants => "SYNTHESIZE_INVARIANTS"
  | synthesizeTemplate => "SYNTHESIZE_TEMPLATE"
  | generateConstraints => "GENERATE_CONSTRAINTS"
  | prepareSolverInputs => "PREPARE_SOLVER_INPUTS"
  | runSolver => "RUN_SOLVER"
  | done => "Done"

def title : Stage → String
  | parseInput => "Parse Input"
  | prepareRequirements => "Prepare Requirements"
  | constructSystemStates => "Construct System States"
  | policyPreparation => "Policy Preparation"
  | synthesizeInvariants => "Synthesize Invariants"
  | synthesizeTemplate => "Synthesize Template"
  | generateConstraints => "Generate Constraints"
  | prepareSolverInputs => "Prepare Solver Inputs"
  | runSolver => "Run Solver"
  | done => "Done"

def text (s : Stage) : String := "[" ++ toString s.number ++ "-" ++ s.title ++ "]"

def ofNumber (n : Int) : Except Error Stage :=
  match all.find? (fun s => (s.number : Int) == n) with
  | some s => .ok s
  | none => .error .unknownStage

def ofName? (s : String) : Option Stage := all.find? (fun t => t.name == s)

def next : Stage → Stage
  | parseInput => prepareRequirements
  | prepareRequirements => constructSystemStates
  | constructSystemStates => policyPreparation
  | policyPreparation => synthesizeInvariants
  | synthesizeInvariants => synthesizeTemplate
  | synthesizeTemplate => generateConstraints
  | generateConstraints => prepareSolverInputs
  | prepareSolverInputs => runSolver
  | runSolver => done
  | done => parseInput

end Stage

/-! ## Runs -/

structure Place where
  input : String
  output : String

structure Parsed where
  input : Input

structure Prepared extends Parsed where
  noise : Noise
  settings : Settings

structure Constructed extends Prepared where
  model : Model

structure Controlled extends Constructed where
  policy : DecomposedPolicy

structure Enclosed extends Controlled where
  invariant : Invariant
  invariantGroups : List (String × List Constraint)

structure Templated extends Enclosed where
  certificate : Certificate

structure Constrained extends Templated where
  groups : List (String × List Constraint)

structure Queried extends Constrained where
  query : String
  querySettings : Value

structure Answered extends Queried where
  answer : Answer

def ActionInput.policy (a : ActionInput) (sets : Nat) (shelf : Powers.Shelf) :
    Except Error (DecomposedPolicy × Powers.Shelf) :=
  DecomposedPolicy.make a.actions a.states a.degree sets a.policies [("min", a.minimum), ("max", a.maximum)] shelf

namespace Run

open SessionM (say)

/-- The place of a run. Without an output folder it is one beside the input, or in it if the input
is a folder; the output folder is made if it is not there. -/
def place (input output : String) : SessionM Place := do
  let files ← SessionM.files
  let output :=
    if output.isEmpty then
      Path.join (if files.isFolder input then input else Path.folder input) "temp"
    else output
  if !files.exists? output then SessionM.change (fun f => f.makeFolder output)
  return ⟨input, output⟩

def bold : String := "\x1b[1m"

def green : String := "\x1b[32m"

def reset : String := "\x1b[0m"

def announced {α : Type} (stage : Stage) (a : SessionM α) : SessionM α := do
  say (bold ++ stage.text ++ reset ++ " Stage started...")
  let x ← a
  say (bold ++ green ++ stage.text ++ reset ++ " Stage completed.")
  return x

def parse (p : Place) : SessionM Parsed := do
  let files ← SessionM.files
  let paths ←
    if files.isFolder p.input then do
      say "+ Directory detected. Parsing all files in the directory."
      pure (["*.yaml", "*.json", "*.yml"].flatMap (fun n => files.glob (Path.join p.input n)))
    else if files.isFile p.input then pure [p.input]
    else throw (.inputNotFound p.input)
  return ⟨← Input.read files (p.output :: paths)⟩

def prepare (r : Parsed) : SessionM Prepared := do
  let d := r.input.disturbance
  let noise ← Noise.make d.dimension d.distribution d.parameters
  let s := r.input.synthesis
  let settings ← Settings.make s.degree s.probability s.theoremName s.solverName
  return { r with noise, settings }

def construct (p : Place) (r : Prepared) : SessionM Constructed := do
  let space ← Space.read r.input.systemSpace
  say "+ Constructed 'System Space' successfully."
  let initial ← Space.read r.input.initialSpace
  say "+ Constructed 'Initial Space' successfully."
  let dynamics ← Dynamics.make r.input.system.states (r.input.system.pieces.map .piece)
  say "+ Constructed 'Stochastic Dynamical System' successfully."
  let s := r.input.specification
  let specification ← Specification.make s.formula s.lookup s.translator s.automaton
  let (text, specification) ← specification.automatonText (Path.join p.output "ltl2ldba.hoa")
  say "+ Retrieved 'LDBA HOA' successfully."
  let automaton ← Automaton.read text (Specification.lookupTable specification.lookup)
  say "+ Constructed 'LDBA' successfully."
  say ("  + " ++ automaton.detailed)
  return { r with model := { space, initial, dynamics, noise := r.noise, automaton } }

def control (r : Constructed) : SessionM Controlled := do
  let policy ← SessionM.withShelf (r.input.actions.policy r.model.automaton.sets.length)
  say ("  + " ++ policy.text)
  return { r with policy }

def enclose (r : Controlled) : SessionM Enclosed := do
  if !r.input.invariants then
    say "+ Synthesizing 'Invariant Template' skipped."
    return { r with invariant := .trivial, invariantGroups := [] }
  let s := r.input.system
  let template ← SessionM.withShelf (InvariantTemplate.make s.states s.actions r.settings.degree
    r.model.automaton.states.length)
  say "+ Synthesized 'Invariant Template' successfully."
  say ("  + " ++ template.text)
  let initial ← template.initial r.model
  say "+ Generated Invariant's 'Initial Constraint' successfully."
  let induction ← template.induction r.model r.policy
  say "+ Generated Invariant's 'Inductive Constraint' successfully."
  return { r with
    invariant := .sought template
    invariantGroups := [("invariant_initial", initial), ("invariant_inductive", induction)] }

def template (r : Enclosed) : SessionM Templated := do
  let parameters ← CertificateVariables.make r.settings.probability (.int 1)
  let s := r.input.system
  let certificate ← SessionM.withShelf (Certificate.make s.states s.actions r.settings.degree
    r.model.automaton.states.length r.model.automaton.sets.length parameters)
  say "+ Synthesized 'Certificate Templates' successfully."
  say ("  + " ++ certificate.text)
  return { r with certificate }

def constrain (r : Templated) : SessionM Constrained := do
  let c := r.certificate
  let initial ← c.initial r.model
  say "+ Generated 'Initial Space Upper Bound Constraints' successfully."
  let safety ← c.safety r.model r.invariant
  say "+ Generated 'Safety Constraints' successfully."
  let nonNegativity ← c.nonNegativity r.model r.invariant
  say "+ Generated 'Non-Negativity Constraints' successfully."
  let decrease ← c.decrease r.model r.invariant r.policy
  say "+ Generated 'Strict Expected Decrease Constraints' successfully."
  let increase ← c.increase r.model r.invariant r.policy
  say "+ Generated 'Bounded Expected Increase Constraints' successfully."
  let limits ← c.actionLimits r.model r.policy
  if !limits.isEmpty then say "+ Generated 'Controller Boundary Constraints' successfully."
  let bounds ← c.variableBounds
  if !bounds.isEmpty then say "+ Generated 'Template Variables Constraints' successfully."
  return { r with groups := [
    ("template_variables", bounds),
    ("initial_space", initial),
    ("non_negativity", nonNegativity),
    ("safety", safety),
    ("strict_expected_decrease", decrease),
    ("bounded_expected_increase", increase),
    ("controller_bound", limits)] }

def textLe (s t : String) : Bool := !decide (t < s)

def query (p : Place) (r : Constrained) : SessionM Queried := do
  let own := r.policy.constants
  let templates := r.certificate.constants
  let invariants := r.invariant.constants
  let constants := ((own ++ templates ++ invariants).eraseDups).mergeSort textLe
  say "+ Constraints passed to the solver:"
  r.groups.forM (fun (name, group) => say ("  + " ++ name ++ ": " ++ toString group.length ++ "x"))
  say ("+ Number of constants: " ++ toString constants.length)
  say ("  + From Control Policy: " ++ toString own.length)
  say ("  + From Certificate Template: " ++ toString templates.length)
  say ("  + From Invariant Template: " ++ toString invariants.length)
  let query ← Query.text constants (r.invariantGroups ++ r.groups)
  let s := r.settings
  let querySettings := Query.settings s.theoremName s.degree s.solverName (← SessionM.files).here p.output
  SessionM.writeFile (Query.settingsPath p.output) (Json.writeBlock querySettings)
  SessionM.writeFile (Query.queryPath p.output) query
  return { r with query, querySettings }

def solve (r : Queried) : SessionM Answered := do
  let answer ← SessionM.ask
  say "+ Polyhorn solver completed."
  say ("  + Satisfiability: " ++ answer.status.toText)
  say "    Model:"
  let model ← Answer.refine answer.model r.model.automaton.states
  let sorted := model.mergeSort (fun a b => textLe a.1 b.1)
  sorted.forM (fun (k, v) => say ("           " ++ k ++ ": " ++ v.toText))
  return { r with answer := { answer with model } }

inductive Progress where
  | waiting
  | parsed (r : Parsed)
  | prepared (r : Prepared)
  | constructed (r : Constructed)
  | controlled (r : Controlled)
  | enclosed (r : Enclosed)
  | templated (r : Templated)
  | constrained (r : Constrained)
  | queried (r : Queried)
  | answered (r : Answered)

namespace Progress

def stage : Progress → Stage
  | waiting => .parseInput
  | parsed _ => .prepareRequirements
  | prepared _ => .constructSystemStates
  | constructed _ => .policyPreparation
  | controlled _ => .synthesizeInvariants
  | enclosed _ => .synthesizeTemplate
  | templated _ => .generateConstraints
  | constrained _ => .prepareSolverInputs
  | queried _ => .runSolver
  | answered _ => .done

def advance (p : Place) (progress : Progress) : SessionM Progress :=
  announced progress.stage (match progress with
    | waiting => do return .parsed (← parse p)
    | parsed r => do return .prepared (← prepare r)
    | prepared r => do return .constructed (← construct p r)
    | constructed r => do return .controlled (← control r)
    | controlled r => do return .enclosed (← enclose r)
    | enclosed r => do return .templated (← template r)
    | templated r => do return .constrained (← constrain r)
    | constrained r => do return .queried (← query p r)
    | queried r => do return .answered (← solve r)
    | answered r => return .answered r)

end Progress

structure Report where
  stage : Stage
  printed : String
  outcome : Except Error Progress

def reports (p : Place) : Nat → Progress → Session → List Report × Session
  | 0, _, s => ([], s)
  | n + 1, progress, s =>
    let (outcome, s) := (progress.advance p).runIn { s with printed := "" }
    let report : Report := ⟨progress.stage, s.printed, outcome⟩
    match outcome with
    | .ok progress =>
      let (more, s) := reports p n progress s
      (report :: more, s)
    | .error _ => ([report], s)

/-- The stages behind the reading of an input. -/
def rest (p : Place) (r : Parsed) : SessionM Answered := do
  let prepared ← announced .prepareRequirements (prepare r)
  let constructed ← announced .constructSystemStates (construct p prepared)
  let controlled ← announced .policyPreparation (control constructed)
  let enclosed ← announced .synthesizeInvariants (enclose controlled)
  let templated ← announced .synthesizeTemplate (template enclosed)
  let constrained ← announced .generateConstraints (constrain templated)
  let queried ← announced .prepareSolverInputs (query p constrained)
  announced .runSolver (solve queried)

def whole (input output : String) : SessionM Answered := do
  let p ← place input output
  rest p (← announced .parseInput (parse p))

end Run

end Supermartingale
