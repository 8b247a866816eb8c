import Supermartingale.CommandLine

/-!
# The program

The outer layer: it reads files and prints. Standard input holds what the run may use: a line that
is an object is an answer of the solver, any other line names a file.
-/

namespace Supermartingale

instance : Clock IO := ⟨do return Float.ofNat (← IO.monoNanosNow) / 1e9⟩

namespace Program

partial def readLines (input : IO.FS.Stream) : IO (List String) := do
  let line ← input.getLine
  if line.isEmpty then return []
  return Text.strip line :: (← readLines input)

def load (files : Files) (path : String) : IO Files := do
  try
    return files.put path (← IO.FS.readFile path) true
  catch _ => return files

def gather (session : Session) : List String → IO Session
  | [] => return session
  | line :: rest => do
    let session ←
      match Json.read line with
      | .ok (.object fields) =>
        let field (name : String) : Value := (Value.find? fields name).getD .null
        let model := match field "model" with
          | .object model => model.map (fun (k, v) => (k.toText, v))
          | _ => []
        pure { session with answers := session.answers ++ [⟨field "is_sat", model⟩] }
      | _ => pure { session with files := ← load session.files line }
    gather session rest

def missed? : Error → Option String
  | .noSuchFile path => some path
  | .translatorMissing path => some path
  | .invalidInputPath path => some path
  | _ => none

/-- Answers a request. As long as only a file is missed that can be read, the run starts over with
it. -/
partial def attempt (request : CommandLine.Request) (session : Session) :
    IO (Except Error CommandLine.Ending × Session) := do
  let run : SessionT IO CommandLine.Ending := CommandLine.answer request
  let (ending, after) ← (ExceptT.run run).run session
  match ending with
  | .error e =>
    match missed? e with
    | none => return (ending, after)
    | some path =>
      let files ← load session.files path
      if files.entries.length = session.files.entries.length then return (ending, after)
      attempt request { session with files }
  | .ok _ => return (ending, after)

def save (before after : Files) : IO Unit := do
  for (path, entry) in after.entries do
    match entry with
    | .folder => IO.FS.createDirAll path
    | .file text _ =>
      let known := match before.find? path with
        | some (.file old _) => old == text
        | _ => false
      if !known then
        IO.FS.createDirAll (Path.folder path)
        IO.FS.writeFile path text

def run (arguments : List String) : IO UInt32 := do
  let request := CommandLine.request arguments
  match request with
  | .refused why =>
    IO.eprint (CommandLine.usage ++ CommandLine.program ++ ": error: " ++ why ++ "\n")
    return 2
  | .help =>
    IO.print CommandLine.helpText
    return 0
  | .run _ =>
    let here := toString (← IO.currentDir)
    let session ← gather { files := Files.empty here } (← readLines (← IO.getStdin))
    let (ending, after) ← attempt request session
    IO.print after.printed
    save session.files after.files
    match ending with
    | .ok .done => return 0
    | .ok (.left code) => return code.toUInt32
    | .error e =>
      IO.eprintln e.report
      return 1

end Program

end Supermartingale

def main (arguments : List String) : IO UInt32 := Supermartingale.Program.run arguments
