import Supermartingale.Benchmark

/-!
# The command line

Options start with two dashes. The start of an option's name stands for the option as long as no
other one starts in the same way, and a value may follow behind an equals sign.
-/

namespace Supermartingale

namespace CommandLine

inductive Flag where
  | help
  | input
  | iterations
  | output
  | dumpLog
  | visualize
deriving DecidableEq, Repr

namespace Flag

def spellings : List (String × Flag) := [
  ("-h", help),
  ("--help", help),
  ("--input", input),
  ("--iterations", iterations),
  ("--output", output),
  ("--dump-log", dumpLog),
  ("--visualize", visualize)]

def name : Flag → String
  | help => "-h/--help"
  | input => "--input"
  | iterations => "--iterations"
  | output => "--output"
  | dumpLog => "--dump-log"
  | visualize => "--visualize"

inductive Takes where
  | nothing
  | one
  | atMostOne
deriving DecidableEq, Repr

def takes : Flag → Takes
  | help => .nothing
  | input => .atMostOne
  | iterations => .one
  | output => .atMostOne
  | dumpLog => .nothing
  | visualize => .nothing

end Flag

structure Options where
  input : Option String := none
  iterations : Int := 1
  output : Option String := some "benchmark_results.txt"
  dumpLog : Bool := false
  visualize : Bool := false
deriving DecidableEq, Repr

/-- What a command line asks for; one that cannot be understood is refused. -/
inductive Request where
  | run (o : Options)
  | help
  | refused (why : String)
deriving DecidableEq, Repr

/-! ## Words -/

/-- What a word on the command line is. -/
inductive Word where
  | value (s : String)
  | divider
  | option (flag : Flag) (given : Option String)
  | bundle (letters : List Char)
  | unknown (s : String)
deriving DecidableEq, Repr

def cutEquals (s : String) : String × Option String :=
  let cs := s.toList
  if cs.contains '=' then
    (String.ofList (cs.takeWhile (· != '=')), some (String.ofList ((cs.dropWhile (· != '=')).drop 1)))
  else (s, none)

def isNegativeNumber (s : String) : Bool :=
  match s.toList with
  | '-' :: cs =>
    let whole := cs.takeWhile Text.isDecimal
    match cs.dropWhile Text.isDecimal with
    | [] => !whole.isEmpty
    | '.' :: rest => !rest.isEmpty && rest.all Text.isDecimal
    | _ => false
  | _ => false

def candidates (s : String) : List (String × Flag × Option String) :=
  let (start, given) := cutEquals s
  (Flag.spellings.filter (fun (k, _) => (Text.dropLeading? start.toList k.toList).isSome)).map
    (fun (k, f) => (k, f, given))

def looksOptional (s : String) : Bool :=
  match s.toList with
  | '-' :: _ :: _ => true
  | _ => false

def exactOption? (s : String) : Option Word :=
  match Flag.spellings.find? (·.1 == s) with
  | some (_, f) => some (.option f none)
  | none =>
    let (start, given) := cutEquals s
    match given, Flag.spellings.find? (·.1 == start) with
    | some v, some (_, f) => some (.option f (some v))
    | _, _ => none

/-- What a word is that starts with two dashes and is no option as it stands. -/
def classifyShortened (s : String) : Except String Word :=
  match candidates s with
  | [(_, f, given)] => .ok (.option f given)
  | _ :: _ :: _ =>
    .error ("ambiguous option: " ++ s ++ " could match " ++ String.intercalate ", " ((candidates s).map (·.1)))
  | [] => .ok (if s.toList.contains ' ' then .value s else .unknown s)

def classify (s : String) : Except String Word :=
  if !looksOptional s then .ok (.value s)
  else match s.toList, exactOption? s with
    | '-' :: 'h' :: '=' :: letters, _ => .ok (.bundle letters)
    | _, some w => .ok w
    | cs, none =>
      match cs with
      | '-' :: '-' :: _ => classifyShortened s
      | '-' :: 'h' :: letters => .ok (.bundle letters)
      | _ => .ok (if isNegativeNumber s || s.toList.contains ' ' then .value s else .unknown s)

def words : List String → Except String (List Word)
  | [] => .ok []
  | s :: rest =>
    if s == "--" then .ok (.divider :: rest.map .value)
    else do return (← classify s) :: (← words rest)

/-! ## Options -/

def set (o : Options) (f : Flag) (v : Option String) : Except String Options :=
  match f with
  | .input => .ok { o with input := v }
  | .output => .ok { o with output := v }
  | .iterations =>
    let s := v.getD ""
    match Number.whole? s with
    | some n => .ok { o with iterations := n }
    | none => .error ("argument --iterations: invalid int value: " ++ Text.quoted s)
  | .dumpLog => .ok { o with dumpLog := true }
  | .visualize => .ok { o with visualize := true }
  | .help => .ok o

def ignored (f : Flag) (v : String) : String := "argument " ++ f.name ++ ": ignored explicit argument " ++ Text.quoted v

/-- Goes through the words from left to right. -/
def follow : List Word → Options → List String → Request
  | [], o, [] => .run o
  | [], _, extra => .refused ("unrecognized arguments: " ++ String.intercalate " " extra)
  | .value s :: rest, o, extra => follow rest o (extra ++ [s])
  | .divider :: rest, o, extra => follow rest o (extra ++ ["--"])
  | .unknown s :: rest, o, extra => follow rest o (extra ++ [s])
  | .bundle letters :: _, _, _ =>
    match letters, letters.dropWhile (· == 'h') with
    | _ :: _, [] => .help
    | _, rest => .refused (ignored .help (String.ofList rest))
  | .option f (some v) :: rest, o, extra =>
    match f.takes with
    | .nothing => .refused (ignored f v)
    | _ => match set o f (some v) with
      | .ok o => follow rest o extra
      | .error why => .refused why
  | .option f none :: .value s :: rest, o, extra =>
    match f.takes with
    | .nothing => match f with
      | .help => .help
      | f => match set o f none with
        | .ok o => follow rest o (extra ++ [s])
        | .error why => .refused why
    | _ => match set o f (some s) with
      | .ok o => follow rest o extra
      | .error why => .refused why
  | .option f none :: rest, o, extra =>
    match f, f.takes with
    | .help, _ => .help
    | f, .one => .refused ("argument " ++ f.name ++ ": expected one argument")
    | f, _ => match set o f none with
      | .ok o => follow rest o extra
      | .error why => .refused why

def request (arguments : List String) : Request :=
  match words arguments with
  | .error why => .refused why
  | .ok ws => follow ws {} []

def program : String := "__main__.py"

def usage : String :=
  "usage: " ++ program ++ " [-h] [--input [INPUT]] [--iterations ITERATIONS]\n" ++
  "                   [--output [OUTPUT]] [--dump-log] [--visualize]\n"

def helpText : String :=
  usage ++
  "\nThe implementation of the 'Supermartingale Certificates for Quantitative\n" ++
  "Omega-regular Verification and Control' paper.\n" ++
  "\noptions:\n" ++
  "  -h, --help            show this help message and exit\n" ++
  "  --input [INPUT]       Path to the input file for the system. This can be a\n" ++
  "                        single file or a directory (default: None)\n" ++
  "  --iterations ITERATIONS\n" ++
  "                        Number of iterations to run the system (default: 1)\n" ++
  "  --output [OUTPUT]     Path to the file you want to dump the results to\n" ++
  "                        (default: benchmark_results.txt)\n" ++
  "  --dump-log            Dump the log of the system to a file (default: False)\n" ++
  "  --visualize           Visualize the results of the system (default: False)\n"

def execute {m : Type → Type} [Monad m] [Clock m] (o : Options) : SessionT m Unit := do
  let path := o.input.getD ""
  if path.isEmpty then throw .noInputPath
  let files ← SessionM.lift SessionM.files
  if o.visualize then SessionM.lift (Benchmark.showLog path o.output)
  else if files.isFolder path then
    SessionM.say "Running the system in bulk mode"
    let es ← Benchmark.bulk path
    SessionM.lift (Benchmark.showTable (Benchmark.Experiment.table es) (some "benchmark_results.txt"))
  else if files.isFile path then
    let s ← Benchmark.run path o.iterations true
    if o.dumpLog then
      match o.output with
      | none => throw .misapplied
      | some output =>
        let e := Benchmark.Experiment.ofSummary (Path.name path) s
        SessionM.lift (Benchmark.log (.record e.fields) output)
  else throw (.invalidInputPath path)

inductive Ending where
  | done
  | left (code : Nat)
deriving DecidableEq, Repr

/-- Answers a command line. What is wrong with one that is refused is not printed here. -/
def answer {m : Type → Type} [Monad m] [Clock m] : Request → SessionT m Ending
  | .run o => do
    execute o
    return .done
  | .help => do
    modify (fun s => { s with printed := s.printed ++ helpText })
    return .left 0
  | .refused _ => return .left 2

end CommandLine

end Supermartingale
