import Supermartingale.Run
import Supermartingale.Table

/-!
# Benchmarks

A benchmark takes an input through a run several times and says how long that took, whether the
solver was satisfied each time, and what was asked for.
-/

namespace Supermartingale

namespace Benchmark

open SessionM (say)

variable {m : Type → Type} [Monad m] [Clock m]

def mean (xs : List Float) : Float := xs.foldl (· + ·) 0.0 / Float.ofNat xs.length

def deviation (xs : List Float) : Float :=
  let centre := mean xs
  Float.sqrt (mean (xs.map (fun x => (x - centre) * (x - centre))))

def spread (places : Nat) (xs : List Float) : String :=
  Double.fixed places (mean xs) ++ " ± " ++ Double.fixed places (deviation xs) ++ " seconds"

/-! ## One input -/

/-- What is known of an input after some runs. Before the first one nothing is. -/
structure Summary where
  durations : List Float := []
  satisfied : Value := .null
  probability : Value := .null
  specification : Value := .null

namespace Summary

def start (iterations : Int) : Summary := { satisfied := if iterations ≥ 1 then .bool true else .null }

def status (s : Summary) : String := if s.satisfied.isEmpty then "Failed" else "Succeeded"

def add (s : Summary) (r : Answered) (duration : Float) : Except Error Summary := do
  let satisfied :=
    if s.satisfied.isEmpty then s.satisfied else .bool r.answer.isSatisfied
  let lookup ← r.input.specification.lookup.fields
  return {
    durations := s.durations ++ [duration]
    satisfied
    probability := r.settings.probability
    specification := ← Specification.reading r.input.specification.formula lookup }

end Summary

/-- Runs an input several times. Unless it is for a report, the solver has to be satisfied. -/
def iterate (path : String) (shown report : Bool) : Nat → Summary → SessionT m Summary
  | 0, s => return s
  | n + 1, s => do
    let (r, duration) ← SessionM.timed (Run.whole path "")
    if shown then say ("Runtime: " ++ Double.fixed 3 duration ++ " seconds")
    if !report && !r.answer.isSatisfied then throw .unsatisfied
    iterate path shown report n (← s.add r duration)

def run (path : String) (iterations : Int := 1) (report : Bool := false) : SessionT m Summary := do
  let s ← iterate path (iterations > 1) report iterations.toNat (.start iterations)
  say ("Runtime: " ++ spread 3 s.durations)
  say ("Specification: " ++ s.specification.toText)
  say ("Probability: " ++ s.probability.toText)
  return s

def check : SessionT m Summary := run "benchmark/random_walk_verification_3.json"

def durations (path : String) : Nat → SessionT m (List Float)
  | 0 => return []
  | n + 1 => do
    let (r, duration) ← SessionM.timed (Run.whole path "")
    if !r.answer.isSatisfied then throw .unsatisfied
    return duration :: (← durations path n)

def measure (path : String) (iterations : Int := 10) : SessionT m (List Float) := do
  let xs ← durations path iterations.toNat
  say ("Mean Runtime: " ++ Double.fixed 9 (mean xs) ++ " seconds")
  say ("Standard Deviation of Runtime: " ++ Double.fixed 9 (deviation xs) ++ " seconds")
  say ("Mean Runtime: " ++ spread 3 xs)
  return xs

/-! ## Many inputs -/

structure Experiment where
  name : String
  specification : Value
  probability : Value
  runtime : Value
  status : String

namespace Experiment

def ofSummary (name : String) (s : Summary) : Experiment :=
  ⟨name, s.specification, s.probability, .number (.double (mean s.durations)), s.status⟩

def failed (name : String) : Experiment := ⟨name, .text "Unknown", .text "Unknown", .text "Unknown", "Error"⟩

def fields (e : Experiment) : List (String × Value) := [
  ("Experiment", .text e.name),
  ("Specification", e.specification),
  ("Probability", e.probability),
  ("Runtime", e.runtime),
  ("Status", .text e.status)]

def names : List String := ["Experiment", "Specification", "Probability", "Runtime", "Status"]

def table (es : List Experiment) : Table :=
  ⟨names.map (fun n => (n, es.map (fun e => (e.fields.find? (·.1 == n)).elim .null (·.2))))⟩

end Experiment

def showTable (t : Table) (output : Option String) : SessionM Unit := do
  let text ← t.draw
  say text
  match output with
  | none => pure ()
  | some path =>
    SessionM.writeFile path text
    say ("Results saved to " ++ path)

def log (record : Value) (path : String) : SessionM Unit := do
  SessionM.appendFile path (Json.writeLine record ++ "\n")
  say ("Log saved to " ++ path)

/-- The lines of a text; a break at its end starts no further line. -/
def linesOf (s : String) : List String :=
  let lines := Text.splitOn "\n" s
  if lines.getLast? == some "" then lines.dropLast else lines

def showLog (path : String) (output : Option String) : SessionM Unit := do
  let lines := linesOf (← SessionM.readFile path)
  let records ← (lines.mapM Json.read : Except Error (List Value))
  showTable (← Table.ofRows records) output

/-- Inputs in the order in which they are benchmarked: the verifications, then the controls. What
is neither is reported and left out. -/
def order (names : List String) : SessionM (List String) := do
  let isVerification (n : String) : Bool := Text.contains "verification" n
  let isControl (n : String) : Bool := !isVerification n && Text.contains "control" n
  (names.filter (fun n => !isVerification n && !isControl n)).forM (fun n =>
    say ("Unknown benchmark: " ++ n))
  return (names.filter isVerification).mergeSort Run.textLe ++ (names.filter isControl).mergeSort Run.textLe

def experiment (folder name : String) : SessionT m Experiment := do
  say ("Running benchmark for " ++ name)
  try
    return .ofSummary name (← run (Path.join folder name) 1 true)
  catch e =>
    say ("Failed to run the experiment: " ++ e.report)
    return .failed name

def experiments (folder : String) : List String → List Experiment → SessionT m (List Experiment)
  | [], done => return done
  | name :: rest, done => do
    let done := done ++ [← experiment folder name]
    SessionM.lift (showTable (Experiment.table done) none)
    experiments folder rest done

def bulk (folder : String) : SessionT m (List Experiment) := do
  let names := (← SessionM.lift SessionM.files).list folder
  let inputs := names.filter (fun n => [".yml", ".yaml", ".json"].any (fun e => Path.endsWith e n))
  let es ← experiments folder (← SessionM.lift (order inputs)) []
  say "Benchmarking completed"
  return es

end Benchmark

end Supermartingale
