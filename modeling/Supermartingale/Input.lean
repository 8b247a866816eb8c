import Supermartingale.Dynamics
import Supermartingale.Files
import Supermartingale.Json
import Supermartingale.Yaml

/-!
# Inputs

An input is spread over one or more files. Fields of the same name are merged, first among the JSON
files and among the YAML files, then YAML over JSON.
-/

namespace Supermartingale

inductive Section where
  | actions
  | disturbance
  | system
  | synthesis
  | specification
  | systemSpace
  | initialSpace
  | invariants
deriving DecidableEq, Repr

namespace Section

def all : List Section :=
  [actions, disturbance, system, synthesis, specification, systemSpace, initialSpace, invariants]

def name : Section → String
  | actions => "actions_pre"
  | disturbance => "disturbance_pre"
  | system => "sds_pre"
  | synthesis => "synthesis_config_pre"
  | specification => "specification_pre"
  | systemSpace => "system_space_pre"
  | initialSpace => "initial_space_pre"
  | invariants => "enable_linear_invariants"

/-- What a section is if nothing is said of it; it also shows the sort that a section has to
have. -/
def usual : Section → Value
  | systemSpace => .text ""
  | initialSpace => .text ""
  | invariants => .bool false
  | _ => .object []

def check (s : Section) (v : Value) : Except Error Unit :=
  if v.sortName == s.usual.sortName then .ok ()
  else .error (.sectionMismatch s.name s.usual.sortText v.sortText)

/-- The sections, where some are given by name; every name has to be one of a section. -/
def override (given : List (String × Value)) : Except Error (List (Section × Value)) := do
  if given.any (fun (k, _) => !all.any (fun s => s.name == k)) then throw .misapplied
  let values := all.map (fun s => (s, (given.find? (·.1 == s.name)).elim s.usual (·.2)))
  values.forM (fun (s, v) => s.check v)
  return values

end Section

structure ActionInput where
  actions : Value
  states : Value
  degree : Value
  policies : Value
  minimum : Value
  maximum : Value

namespace ActionInput

def fields (a : ActionInput) : List (String × Value) := [
  ("action_dimension", a.actions),
  ("state_dimension", a.states),
  ("maximal_degree", a.degree),
  ("policies", a.policies),
  ("limits", .record [("min", a.minimum), ("max", a.maximum)])]

end ActionInput

structure DisturbanceInput where
  dimension : Value
  distribution : Value
  parameters : Value

namespace DisturbanceInput

def fields (d : DisturbanceInput) : List (String × Value) := [
  ("dimension", d.dimension),
  ("distribution_name", d.distribution),
  ("distribution_generator_parameters", d.parameters)]

end DisturbanceInput

structure SystemInput where
  states : Value
  actions : Value
  disturbances : Value
  pieces : List Piece

namespace SystemInput

def fields (s : SystemInput) : List (String × Value) := [
  ("state_dimension", s.states),
  ("action_dimension", s.actions),
  ("disturbance_dimension", s.disturbances)]

end SystemInput

structure SynthesisInput where
  degree : Value
  probability : Value
  theoremName : Value
  solverName : Value
  translator : Value

namespace SynthesisInput

def fields (s : SynthesisInput) : List (String × Value) := [
  ("maximal_polynomial_degree", s.degree),
  ("probability_threshold", s.probability),
  ("theorem_name", s.theoremName),
  ("solver_name", s.solverName),
  ("owl_path", s.translator)]

end SynthesisInput

structure SpecificationInput where
  formula : Value
  lookup : Value
  translator : Value
  automaton : Value

namespace SpecificationInput

def fields (s : SpecificationInput) : List (String × Value) := [
  ("ltl_formula", s.formula),
  ("predicate_lookup", s.lookup),
  ("owl_binary_path", s.translator),
  ("hoa_path", s.automaton)]

end SpecificationInput

structure Input where
  actions : ActionInput
  disturbance : DisturbanceInput
  system : SystemInput
  synthesis : SynthesisInput
  specification : SpecificationInput
  systemSpace : String
  initialSpace : String
  invariants : Bool

namespace Input

def fieldNames : List String :=
  ["actions", "disturbance", "stochastic_dynamical_system", "synthesis_config", "specification"]

/-- Merges a field into others: objects and lists grow, anything else is replaced. -/
def mergeField (fields : Fields) (field : Key × Value) : Except Error Fields :=
  let (name, v) := field
  match fields.find? (fun (k, _) => k.same name), v with
  | none, v => .ok (fields ++ [(name, v)])
  | some (_, .object old), .object new => .ok (Value.setField fields name (.object (Value.setFields old new)))
  | some (_, .list old), .list new => .ok (Value.setField fields name (.list (old ++ new)))
  | some _, .object _ => .error .absentPart
  | some _, .list _ => .error .absentPart
  | some _, v => .ok (Value.setField fields name v)

def mergeFile (files : Files) (read : String → Except Error Value) (fields : Fields) (p : String) :
    Except Error Fields := do
  match ← read (← files.read p) with
  | .object new => new.foldlM mergeField fields
  | _ => throw .absentPart

def mergeFiles (files : Files) (read : String → Except Error Value) (paths : List String) : Except Error Fields :=
  paths.foldlM (mergeFile files read) []

def isJson (p : String) : Bool := Path.endsWith ".json" p

def isYaml (p : String) : Bool := Path.endsWith ".yaml" p || Path.endsWith ".yml" p

def resolve (here base : String) (v : Value) : Except Error Value := do
  if v.isNull then return .null
  let p ← v.toTextOnly
  return .text (if Path.isAbsolute p then p else Path.absolute here (Path.join base p))

def ofFields (here base : String) (fields : Fields) : Except Error Input := do
  let data := Value.object fields
  let synthesis ← data.item "synthesis_config"
  let given ← data.item "actions"
  let system ← data.item "stochastic_dynamical_system"
  let degree ← synthesis.item "maximal_polynomial_degree"
  let actions : ActionInput := {
    degree := ← given.get "maximal_polynomial_degree" degree
    actions := ← system.item "control_space_dimension"
    states := ← system.item "state_space_dimension"
    policies := ← given.get "control_policy"
    minimum := ← given.get "minimum"
    maximum := ← given.get "maximum" }
  let dimension ← system.item "disturbance_space_dimension"
  let noise ← data.item "disturbance"
  let disturbance : DisturbanceInput := {
    dimension
    distribution := ← noise.item "distribution_name"
    parameters := ← noise.item "disturbance_parameters" }
  let pieces ← (← (← system.item "dynamics").members).mapM Piece.ofValue
  let translator ← resolve here base (← synthesis.get "owl_path")
  let settings : SynthesisInput := {
    degree
    probability := ← synthesis.item "probability_threshold"
    theoremName := ← synthesis.item "theorem_name"
    solverName := ← synthesis.item "solver_name"
    translator }
  let specified ← data.item "specification"
  let automaton ← resolve here base (← specified.get "hoa_path")
  let specification : SpecificationInput := {
    formula := ← specified.get "ltl_formula"
    lookup := ← specified.get "proposition_lookup" (.object [])
    translator
    automaton }
  let systemSpace ← system.item "system_space"
  let initialSpace ← system.item "initial_space"
  let invariants ← synthesis.get "use_linear_invariant" (.bool false)
  Section.systemSpace.check systemSpace
  Section.initialSpace.check initialSpace
  Section.invariants.check invariants
  return {
    actions
    disturbance
    system := ⟨actions.states, actions.actions, dimension, pieces⟩
    synthesis := settings
    specification
    systemSpace := systemSpace.toText
    initialSpace := initialSpace.toText
    invariants := !invariants.isEmpty }

def merged (files : Files) (paths : List String) : Except Error Fields := do
  let start := fieldNames.map (fun n => (Key.text n, Value.object []))
  let json ← mergeFiles files Json.read (paths.filter isJson)
  let yaml ← mergeFiles files Yaml.read (paths.filter isYaml)
  return Value.setFields (Value.setFields start json) yaml

/-- Reads an input from files. Relative paths in it are seen from the folder of the first one. -/
def read (files : Files) (paths : List String) : Except Error Input := do
  match paths with
  | [] => throw .noInputFiles
  | first :: _ => ofFields files.here (Path.folder first) (← merged files paths)

end Input

end Supermartingale
