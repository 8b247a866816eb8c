import Supermartingale.Benchmark

/-!
# Tuning

The highest value of a parameter for which the solver is still satisfied is found by bisection. Values are rounded to
one place more than the precision asks for, and the search ends when the interval is smaller than a unit of that
place.
-/

namespace Supermartingale

namespace Tuning

variable {m : Type → Type} [Monad m] [Clock m]

structure Job where
  group : String
  name : String
  input : String
  folder : String
  upper : Value
  precision : Int
  rounds : Int := 100

namespace Job

def inputPath (j : Job) : String := Path.join j.folder "temp_config.json"

def reportPath (j : Job) : String := Path.join j.folder "temp_report.txt"

def note (j : Job) (line : String) : SessionM Unit := SessionM.appendFile j.reportPath (line ++ "\n")

def clear (j : Job) (files : Files) : Except Error Files := do
  let files ← if files.exists? j.folder then pure files else files.makeFolder j.folder
  return files.remove j.reportPath

def place (j : Job) : Int := j.precision + 1

def limit (j : Job) : Except Error Number :=
  match j.place with
  | .ofNat k => do
    return .double (Float.pow 10.0 (-(← liftFault (Number.int k).toDouble)))
  | .negSucc k => .ok (.int (Nat.pow 10 (k + 1)))

end Job

/-- The state of a search: the highest value that is known to do, the lowest that is known not to,
the input as it was tried last, and how long the best run took. -/
structure Search where
  best : Value
  upper : Value
  input : Value
  time : Float := -1.0

def middle (place : Int) (a b : Value) : Except Error Number := do
  let sum ← liftFault ((← a.toNumber).add (← b.toNumber))
  match ← liftFault (sum.div (.int 2)) with
  | .double x => match Double.round? place x with
    | some y => return .double y
    | none => throw .numberTooLarge
  | n => return n

def isFine (j : Job) (s : Search) : Except Error Bool := do
  let gap ← liftFault ((← s.upper.toNumber).sub (← s.best.toNumber))
  return gap.less (← j.limit)

def setParameter (input : Value) (group name : String) (v : Value) : Except Error Value := do
  let inner ← (← input.item group).fields
  return .object (Value.setField (← input.fields) group (.object (Value.setField inner name v)))

/-- Tests the value between the bounds, which then becomes one of them. -/
def attempt (j : Job) (test : SessionT m (Bool × Float)) (s : Search) : SessionT m Search := do
  let value := Value.number (← middle j.place s.best s.upper)
  let shown := j.name ++ " = " ++ value.toText
  let note (line : String) : SessionT m Unit := SessionM.lift (j.note line)
  note ("TESTING for " ++ shown)
  let input ← setParameter s.input j.group j.name value
  SessionM.lift (SessionM.writeFile j.inputPath (Json.writeBlock input))
  let (satisfied, time) ← test
  if satisfied then
    note ("Found satisfiable solution for " ++ shown)
    note ("NEW BEST VALUE for " ++ j.name ++ ": " ++ value.toText)
    note ("TIME: " ++ Double.fixed 6 time ++ " seconds")
    return { s with best := value, input, time }
  else
    note ("Failed to find satisfiable solution for " ++ shown)
    return { s with upper := value, input }

def bisect (j : Job) (test : SessionT m (Bool × Float)) : Nat → Search → SessionT m Search
  | 0, s => return s
  | n + 1, s => do
    let s ← attempt j test s
    if ← isFine j s then
      SessionM.lift (j.note ("Reached precision limit for " ++ j.name))
      return s
    bisect j test n s

def highestBy (j : Job) (test : SessionT m (Bool × Float)) : SessionT m Search := do
  SessionM.lift (SessionM.change j.clear)
  let input ← Json.read (← SessionM.lift (SessionM.readFile j.input))
  let best ← (← input.item j.group).item j.name
  let note (line : String) : SessionT m Unit := SessionM.lift (j.note line)
  note ("Start tuning for " ++ j.name ++ " in [" ++ best.toText ++ ", " ++ j.upper.toText ++
    ") with precision " ++ toString j.precision)
  let s ← bisect j test j.rounds.toNat { best, upper := j.upper, input }
  note ("Final best value for " ++ j.name ++ ": " ++ s.best.toText)
  note ("TIME: " ++ Double.fixed 3 s.time ++ " seconds")
  SessionM.lift (SessionM.writeFile j.inputPath (Json.writeBlock s.input))
  return s

def isSatisfied (j : Job) : SessionT m (Bool × Float) := do
  let (r, time) ← SessionM.timed (Run.whole j.inputPath "")
  return (r.answer.isSatisfied, time)

def highest (j : Job) : SessionT m Search := highestBy j (isSatisfied j)

def usual : Job where
  group := "synthesis_config"
  name := "probability_threshold"
  input := "./benchmark/random_walk_verification_1.json"
  folder := "./benchmark/tuning"
  upper := .int 1
  precision := 5

def tune : SessionT m Unit := do
  let s ← highest usual
  SessionM.say ("\nFinal best value for probability_threshold " ++ s.best.toText ++ " in " ++
    Double.fixed 3 s.time ++ " seconds")

end Tuning

end Supermartingale
