import Supermartingale.Automaton
import Supermartingale.Constraint
import Supermartingale.Json
import Supermartingale.Number.Spelling
import Supermartingale.Session

/-!
# Queries to the solver

A query declares the unknown constants and asserts the constraints, group by group. The answer
assigns values to the constants, and those of the decomposed policy are spread over the states of
the automaton.
-/

namespace Supermartingale

namespace Query

def declare (name : String) : String := "(declare-const " ++ name ++ " Real)"

def text (constants : List String) (groups : List (String × List Constraint)) : Except Error String := do
  let assertions ← (groups.flatMap (·.2)).mapM Constraint.smt
  return String.intercalate "\n" (constants.map declare) ++ "\n\n" ++
    String.intercalate "\n" assertions ++ "\n\n(check-sat)\n(get-model)"

def settings (theoremName degree solverName : Value) (here folder : String) : Value :=
  .record [
    ("theorem_name", theoremName),
    ("degree_of_sat", degree),
    ("degree_of_nonstrict_unsat", .int 0),
    ("degree_of_strict_unsat", .int 0),
    ("max_d_of_strict", .int 0),
    ("solver_name", solverName),
    ("output_path", .text (Path.absolute here (Path.join folder "poly_horn_temp.txt"))),
    ("unsat_core_heuristic", .bool false),
    ("SAT_heuristic", .bool true),
    ("integer_arithmetic", .bool false)]

def settingsPath (folder : String) : String := Path.join folder "temporary_polyhorn_config.json"

def queryPath (folder : String) : String := Path.join folder "temporary_polyhorn_input.smt2"

end Query

namespace Answer

def lastNumber (name : String) : Except Error Int :=
  let last := (Text.splitOn "_" name).getLast?.getD ""
  match Number.whole? last with
  | some n => .ok n
  | none => .error (.notANumber last)

def setValue {κ : Type} [BEq κ] (values : List (κ × Value)) (k : κ) (v : Value) : List (κ × Value) :=
  if values.any (·.1 == k) then values.map (fun (l, w) => if l == k then (l, v) else (l, w))
  else values ++ [(k, v)]

/-- What the constants with these stems are set to, by their last numbers, and the rest of a
model. -/
def takeStem (stem : String) (model : List (String × Value)) : Except Error (List (Int × Value)) := do
  let own := model.filter (fun (k, _) => (Text.dropLeading? stem.toList k.toList).isSome)
  own.foldlM (fun values (k, v) => do return setValue values (← lastNumber k) v) []

def isPolicyConstant (name : String) : Bool :=
  ["Pb0_", "Pa_"].any (fun stem => (Text.dropLeading? stem.toList name.toList).isSome)

/-- A model with the constants of the two policies spread over the states of an automaton: in
accepting states those of the first stem count, elsewhere those of the second. Unless both policies
have constants, they are left out. -/
def refine (model : List (String × Value)) (states : List State) : Except Error (List (String × Value)) := do
  let owners := model.filter (fun (k, _) => isPolicyConstant k)
  owners.forM (fun (k, _) => do let _ ← lastNumber k)
  let accepting ← takeStem "Pa_" model
  let other ← takeStem "Pb0_" model
  let rest := model.filter (fun (k, _) => !isPolicyConstant k)
  if accepting.isEmpty || other.isEmpty then return rest
  return states.foldl (fun model s =>
    let own := if s.isAccepting then accepting else other
    own.foldl (fun model (n, v) => setValue model ("P_" ++ toString s.id ++ "_" ++ toString n) v) model) rest

end Answer

end Supermartingale
