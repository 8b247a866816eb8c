import Supermartingale.Shell.Filter
import Supermartingale.Shell.Grammar
import Supermartingale.Shell.Printing

/-!
# Commands of the shell itself

The commands that work on the state of the script: they print, ask, set names, and end loops,
functions and the script.
-/

namespace Supermartingale.Shell

/-! ## States

A script runs with values for names, words that it was called with, and channels that lead to files
or to texts. A command changes the state, and may also end a loop, a function or the script. -/

inductive Target where
  | buffer (i : Nat)
  | source (i : Nat)
  | file (path : String)
  | nowhere
deriving DecidableEq, Repr

structure State where
  name : List Char
  arguments : List (List Char)
  bindings : Bindings := []
  exported : List String := []
  fixed : List String := []
  functions : List (String × Command) := []
  saved : List (String × Option (List Char)) := []
  options : List Char := []
  status : Nat := 0
  innerStatus : Option Nat := none
  line : Nat := 1
  command : Option (List Char) := none
  loops : Nat := 0
  calls : Nat := 0
  farewell : List Char := []
  buffers : Array (List Char) := #[[], []]
  sources : Array (List Char) := #[[]]
  channels : List (Nat × Target) := [(0, .source 0), (1, .buffer 0), (2, .buffer 1)]
  files : Files

/-- Why the next command is not run: the script is over, some loops are left or gone through again,
or a function is over. -/
inductive Halt where
  | exit
  | leave (loops : Nat)
  | again (loops : Nat)
  | back
deriving DecidableEq, Repr

abbrev Run (α : Type) := ExceptT Halt (StateM State) α

namespace Run

def setStatus (n : Nat) : Run Unit := modify (fun s => { s with status := n })

def writeTo (t : Option Target) (cs : List Char) : Run Unit := modify (fun s =>
  match t with
  | some (.buffer i) => { s with buffers := s.buffers.modify i (· ++ cs) }
  | some (.file path) =>
    match s.files.append path (Text.ofOctetsOrSelf cs) with
    | .ok files => { s with files }
    | .error _ => s
  | _ => s)

def write (channel : Nat) (cs : List Char) : Run Unit := do
  writeTo ((← get).channels.lookup channel) cs

def readRest (channel : Nat) : Run (List Char) := do
  let s ← get
  match s.channels.lookup channel with
  | some (.source i) =>
    set { s with sources := s.sources.modify i (fun _ => []) }
    return (s.sources[i]?).getD []
  | _ => return []

def readLine (channel : Nat) : Run (List Char × Bool) := do
  let s ← get
  match s.channels.lookup channel with
  | some (.source i) =>
    let text := (s.sources[i]?).getD []
    let line := text.takeWhile (· != '\n')
    set { s with sources := s.sources.modify i (fun _ => text.drop (line.length + 1)) }
    return (line, line.length < text.length)
  | _ => return ([], false)

def warn (message : List Char) : Run Unit := do
  let s ← get
  let command := match s.command with
    | some c => c ++ [':', ' ']
    | none => []
  write 2 (s.name ++ (": " ++ toString s.line ++ ": ").toList ++ command ++ message ++ ['\n'])

def fail {α : Type} (message : List Char) (status : Nat := 2) : Run α := do
  warn message
  setStatus status
  throw .exit

/-- Runs a step and gives how it ended, so that something can be done in either case. -/
def ending {α : Type} (step : Run α) : Run (Except Halt α) := fun s =>
  let (r, s) := Id.run (step.run s)
  (Except.ok r, s)

/-- Runs a step in a state of its own; only what it writes, reads and returns is kept. -/
def apart (step : Run Unit) : Run Unit := do
  let s ← get
  modify (fun s => { s with loops := 0, farewell := [] })
  let _ ← ending step
  let t ← get
  set { s with
    status := t.status, buffers := t.buffers, sources := t.sources
    files := { t.files with here := s.files.here } }

def inNameOf {α : Type} (command : Option (List Char)) (step : Run α) : Run α := do
  let before := (← get).command
  modify (fun s => { s with command })
  let r ← ending step
  modify (fun s => { s with command := before })
  match r with
  | .ok a => return a
  | .error h => throw h

def withChannels {α : Type} (step : Run α) : Run α := do
  let channels := (← get).channels
  let r ← ending step
  modify (fun s => { s with channels })
  match r with
  | .ok a => return a
  | .error h => throw h

def point (channel : Nat) (t : Target) : Run Unit := modify (fun s =>
  { s with channels := (channel, t) :: s.channels.filter (·.1 != channel) })

def newBuffer : Run Nat := do
  let s ← get
  set { s with buffers := s.buffers.push [] }
  return s.buffers.size

def newSource (cs : List Char) : Run Nat := do
  let s ← get
  set { s with sources := s.sources.push cs }
  return s.sources.size

def value (name : String) : Run (Option (List Char)) := do
  let s ← get
  match name with
  | "#" => return some (toString s.arguments.length).toList
  | "?" => return some (toString s.status).toList
  | "-" => return some s.options
  | "$" => return some ['1']
  | "!" => return none
  | "0" => return some s.name
  | "PWD" => return some ((s.bindings.lookup name).getD (Text.octets s.files.here))
  | name =>
    match name.toNat? with
    | some n => if name.toList.all Char.isDigit then return s.arguments[n - 1]? else return none
    | none => return s.bindings.lookup name

def assign (name : String) (value : List Char) : Run Unit := do
  if (← get).fixed.contains name then fail ((name ++ ": is read only").toList)
  modify (fun s => { s with bindings := s.bindings.set name value })

def separators : Run (List Char) := do
  return ((← get).bindings.lookup "IFS").getD [' ', '\t', '\n']

def separator : Run (List Char) := do
  return (← separators).take 1

end Run

/-! ## Fields -/

abbrev Glyphs := List (Char × Bool)

/-- The fields that a word becomes: those that are complete, last one first, and the one at hand. -/
structure Fields where
  complete : List Glyphs := []
  current : Option Glyphs := none

namespace Fields

def add (f : Fields) (kept : Bool) (cs : List Char) : Fields :=
  { f with current := some (f.current.getD [] ++ cs.map (·, kept)) }

def close (f : Fields) : Fields :=
  match f.current with
  | some g => ⟨g :: f.complete, none⟩
  | none => f

/-- Adds a value that is cut at separators. Blank ones count as one, also around another one. -/
def addCut (f : Fields) (separators : List Char) (cs : List Char) : Fields :=
  (cs.foldl (fun (f, afterBlank) c =>
    if separators.contains c then
      if c == ' ' || c == '\t' || c == '\n' then
        (f.close, afterBlank || f.current.isSome)
      else if afterBlank && f.current.isNone then (f, false)
      else (⟨f.current.getD [] :: f.complete, none⟩, false)
    else (f.add false [c], false)) (f, false)).1

def toList (f : Fields) : List Glyphs := f.close.complete.reverse

end Fields

def Glyphs.text (g : Glyphs) : List Char := g.map (·.1)

/-- A field as a pattern, in which characters that stand for themselves are put into brackets. -/
def Glyphs.pattern (g : Glyphs) : List Char :=
  g.flatMap (fun (c, kept) =>
    if kept && (c == '*' || c == '?' || c == '[') then ['[', c, ']'] else [c])

def Glyphs.isPattern (g : Glyphs) : Bool := g.any (fun (c, kept) => !kept && (c == '*' || c == '?' || c == '['))

def Glyphs.fits (g : Glyphs) (cs : List Char) : Bool :=
  let p := Glyphs.pattern g
  Path.Piece.matchAll (Path.Piece.ofPattern (p.length + 1) p) cs

def cutStart (longest : Bool) (g : Glyphs) (cs : List Char) : List Char :=
  let lengths := List.range (cs.length + 1)
  match (if longest then lengths.reverse else lengths).find? (fun n => Glyphs.fits g (cs.take n)) with
  | some n => cs.drop n
  | none => cs

def cutEnd (longest : Bool) (g : Glyphs) (cs : List Char) : List Char :=
  let lengths := List.range (cs.length + 1)
  match (if longest then lengths else lengths.reverse).find? (fun n => Glyphs.fits g (cs.drop n)) with
  | some n => cs.take n
  | none => cs

end Supermartingale.Shell

namespace Supermartingale.Shell.Builtin

open Run

def complain (message : List Char) (status : Nat := 2) : Run Unit := do
  warn message
  setStatus status

def count (w : List Char) : Run Nat := do
  match Condition.number w with
  | .ok n =>
    if w.all Char.isDigit then return n.toNat
    else fail ("Illegal number: ".toList ++ w)
  | .error why => fail why

def echo (words : List (List Char)) : Run Unit := do
  write 1 (echoed words)
  setStatus 0

def printf (words : List (List Char)) : Run Unit := do
  let words := match words with
    | ['-', '-'] :: words => words
    | words => words
  match words with
  | [] => complain "usage: printf format [arg ...]".toList
  | pattern :: words =>
    let f := fillAll pattern (words.length + 1) { left := words }
    write 1 f.text
    f.complaints.forM (fun c => complain c)
    match f.fault with
    | some directive => complain (directive ++ ": invalid directive".toList)
    | none => setStatus (if f.complaints.isEmpty then 0 else 1)

/-! ## Asking -/

def test (command : String) (words : List (List Char)) : Run Unit := do
  if command == "[" && (words.getLast?.bind List.head?) != some ']' then complain "missing ]".toList
  else
    let words := if command == "[" then words.dropLast else words
    match Condition.holds ⟨(← get).files⟩ (words.length + 1) words with
    | .ok b => setStatus (if b then 0 else 1)
    | .error why => complain why

def cutLine (separators : List Char) : Nat → List Char → List (List Char)
  | 0, _ => []
  | 1, cs =>
    let isBlank (c : Char) : Bool := separators.contains c && (c == ' ' || c == '\t' || c == '\n')
    [((cs.dropWhile isBlank).reverse.dropWhile isBlank).reverse]
  | n + 1, cs =>
    let isBlank (c : Char) : Bool := separators.contains c && (c == ' ' || c == '\t' || c == '\n')
    let cs := cs.dropWhile isBlank
    let word := cs.takeWhile (!separators.contains ·)
    let rest := (cs.drop word.length).dropWhile isBlank
    let rest := match rest with
      | c :: more => if (cs.drop word.length).head?.any isBlank && separators.contains c then more
          else if separators.contains c then more else rest
      | [] => []
    word :: cutLine separators n rest

def dropBackslashes : List Char → List Char × Bool
  | [] => ([], false)
  | ['\\'] => ([], true)
  | '\\' :: c :: rest =>
    let (after, joins) := dropBackslashes rest
    (c :: after, joins)
  | c :: rest =>
    let (after, joins) := dropBackslashes rest
    (c :: after, joins)

def readJoined : Nat → Run (List Char × Bool)
  | 0 => return ([], false)
  | fuel + 1 => do
    let (line, ended) ← Run.readLine 0
    let (line, joins) := dropBackslashes line
    if joins && ended then
      let (more, ended) ← readJoined fuel
      return (line ++ more, ended)
    return (line, ended)

def read (words : List (List Char)) : Run Unit := do
  let raw := words.head? == some ['-', 'r']
  let names := (if raw then words.drop 1 else words).map String.ofList
  let (line, ended) ← if raw then Run.readLine 0 else readJoined 1000
  let cut := cutLine (← separators) names.length line
  (names.zip (cut ++ List.replicate names.length [])).forM (fun (n, v) => assign n v)
  setStatus (if ended then 0 else 1)

/-! ## Names -/

def cutAssignment (w : List Char) : String × Option (List Char) :=
  match w.dropWhile (· != '=') with
  | '=' :: value => (String.ofList (w.takeWhile (· != '=')), some value)
  | _ => (String.ofList w, none)

def declare (mark : String → State → State) (words : List (List Char)) : Run Unit := do
  words.forM (fun w => do
    let (name, value) := cutAssignment w
    if !isName name then fail ((name ++ ": bad variable name").toList)
    match value with
    | some v => assign name v
    | none => pure ()
    modify (mark name))
  setStatus 0

def localNames (words : List (List Char)) : Run Unit := do
  if (← get).calls = 0 then fail "not in a function".toList
  words.forM (fun w => do
    let (name, value) := cutAssignment w
    modify (fun s => { s with saved := (name, s.bindings.lookup name) :: s.saved })
    match value with
    | some v => assign name v
    | none => pure ())
  setStatus 0

def unset (words : List (List Char)) : Run Unit := do
  let (ofFunctions, words) := match words with
    | ['-', 'f'] :: rest => (true, rest)
    | ['-', 'v'] :: rest => (false, rest)
    | rest => (false, rest)
  words.forM (fun w => do
    let name := String.ofList w
    if !ofFunctions && !isName name then fail ((name ++ ": bad variable name").toList)
    if !ofFunctions && (← get).fixed.contains name then
      fail ((name ++ ": is read only").toList)
    modify (fun s =>
      if ofFunctions then { s with functions := s.functions.filter (·.1 != name) }
      else { s with bindings := s.bindings.filter (·.1 != name) }))
  setStatus 0

def longOptions : List (String × Char) :=
  [("errexit", 'e'), ("nounset", 'u'), ("noglob", 'f'), ("allexport", 'a'), ("noclobber", 'C'),
    ("noexec", 'n'), ("verbose", 'v'), ("xtrace", 'x')]

def switch (on : Bool) (letters : List Char) : Run Unit := modify (fun s =>
  { s with options := if on then s.options ++ letters.filter (!s.options.contains ·)
                      else s.options.filter (!letters.contains ·) })

def setWords : Nat → List (List Char) → Run Unit
  | 0, _ => return ()
  | fuel + 1, words => do
    match words with
    | [] => return ()
    | ['-', '-'] :: rest => modify (fun s => { s with arguments := rest })
    | ['-', 'o'] :: name :: rest =>
      switch true (longOptions.lookup (String.ofList name)).toList
      setWords fuel rest
    | ['+', 'o'] :: name :: rest =>
      switch false (longOptions.lookup (String.ofList name)).toList
      setWords fuel rest
    | ('-' :: c :: letters) :: rest =>
      switch true (c :: letters)
      setWords fuel rest
    | ('+' :: c :: letters) :: rest =>
      switch false (c :: letters)
      setWords fuel rest
    | words => modify (fun s => { s with arguments := words })

def shift (words : List (List Char)) : Run Unit := do
  let n ← match words with
    | [] => pure 1
    | w :: _ => count w
  let s ← get
  if s.arguments.length < n then fail "can't shift that many".toList
  set { s with arguments := s.arguments.drop n, status := 0 }

def cd (words : List (List Char)) : Run Unit := do
  let s ← get
  let target := Condition.path (words.head?.getD (((← value "HOME")).getD []))
  if target.isEmpty then setStatus 0
  else if s.files.isFolder target || target == "/" then
    let here := Path.absolute s.files.here target
    set { s with files := { s.files with here }, status := 0
                 bindings := (s.bindings.set "OLDPWD" (Text.octets s.files.here)).set "PWD"
                   (Text.octets here) }
  else complain ("can't cd to ".toList ++ Text.octets target)

/-! ## Endings -/

def exit (words : List (List Char)) : Run Unit := do
  match words with
  | [] => throw .exit
  | w :: _ =>
    setStatus ((← count w) % 256)
    throw .exit

def back (words : List (List Char)) : Run Unit := do
  match words with
  | [] => throw .back
  | w :: _ =>
    setStatus (← count w)
    throw .back

/-- Leaves loops or goes through them again; outside of loops it does nothing. -/
def jump (make : Nat → Halt) (words : List (List Char)) : Run Unit := do
  let n ← match words with
    | [] => pure 1
    | w :: _ => count w
  if n = 0 then fail ("Illegal number: 0".toList)
  setStatus 0
  let loops := (← get).loops
  if loops = 0 then return ()
  throw (make (min n loops))

def table : List (String × (List (List Char) → Run Unit)) := [
  (":", fun _ => setStatus 0),
  ("true", fun _ => setStatus 0),
  ("false", fun _ => setStatus 1),
  ("echo", echo),
  ("printf", printf),
  ("test", test "test"),
  ("[", test "["),
  ("read", read),
  ("export", fun ws => declare
    (fun n s => { s with exported := n :: s.exported }) (ws.filter (· != ['-', 'p']))),
  ("readonly", fun ws => declare
    (fun n s => { s with fixed := n :: s.fixed }) (ws.filter (· != ['-', 'p']))),
  ("local", localNames),
  ("unset", unset),
  ("set", fun ws => do
    setWords (ws.length + 1) ws
    setStatus 0),
  ("shift", shift),
  ("cd", cd),
  ("pwd", fun _ => do
    write 1 (Text.octets (← get).files.here ++ ['\n'])
    setStatus 0),
  ("exit", exit),
  ("return", back),
  ("break", jump .leave),
  ("continue", jump .again),
  ("wait", fun _ => setStatus 0),
  ("times", fun _ => do
    write 1 "0m0.000000s 0m0.000000s\n0m0.000000s 0m0.000000s\n".toList
    setStatus 0),
  ("umask", fun _ => setStatus 0),
  ("trap", fun ws => do
    match ws with
    | action :: signals =>
      if signals.any (fun w => w == ['0'] || w == "EXIT".toList) then
        modify (fun s => { s with farewell := if action == ['-'] then [] else action })
    | [] => pure ()
    setStatus 0)]

def running : List String := ["eval", ".", "command", "exec", "type"]

def special : List String :=
  [":", ".", "break", "continue", "eval", "exec", "exit", "export", "readonly", "return", "set",
    "shift", "times", "trap", "unset"]

def isBuiltin (name : String) : Bool := running.contains name || table.any (·.1 == name)

end Supermartingale.Shell.Builtin
