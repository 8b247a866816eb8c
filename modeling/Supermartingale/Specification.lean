import Supermartingale.Session
import Supermartingale.Shell.Execution
import Supermartingale.Text.Substitution

/-!
# Specifications

A specification is an automaton, given as a text in a file, or a formula that a translator turns
into one. What the propositions stand for comes with it.
-/

namespace Supermartingale

namespace Translator

def arguments (path formula : String) : List String :=
  [path, "ltl2ldba", "-f", formula, "--state-acceptance", "--complete"]

/-- The interpreter that the first line of a file names, and the one word that it is given. -/
def interpreter? (text : String) : Option (String × Option String) :=
  match text.toList with
  | '#' :: '!' :: rest =>
    let line := rest.takeWhile (· != '\n')
    let isGap (c : Char) : Bool := c == ' ' || c == '\t'
    let line := ((line.dropWhile isGap).reverse.dropWhile isGap).reverse
    let name := line.takeWhile (!isGap ·)
    let word := (line.drop name.length).dropWhile isGap
    if name.isEmpty then none
    else some (String.ofList name, if word.isEmpty then none else some (String.ofList word))
  | _ => none

inductive Start where
  | shell (switches : List Char)
  | printed (text : String)
  | failed (complaint : String)
  | forbidden
  | missing
deriving DecidableEq, Repr

def shells : List String := ["/bin/sh", "/usr/bin/sh", "/bin/dash", "/usr/bin/dash", "/bin/bash", "/usr/bin/bash"]

def shellOptions : List Char := "abCcEefIilmnsuVvx".toList

def systemFolders : List String :=
  ["/", "/bin", "/dev", "/etc", "/home", "/lib", "/opt", "/root", "/sbin", "/tmp", "/usr", "/usr/bin",
    "/usr/lib", "/var"]

def startShell (shell : String) : Option String → Start
  | none => .shell []
  | some word =>
    match word.toList with
    | '-' :: letters =>
      if letters == ['-'] then .shell []
      else match letters.find? (!shellOptions.contains ·) with
        | some c => .failed (shell ++ ": 0: Illegal option -" ++ String.ofList [c] ++ "\n")
        | none => .shell letters
    | '+' :: _ => .shell []
    | _ => .failed (shell ++ ": 0: cannot open " ++ word ++ ": No such file\n")

/-- How a file is started whose interpreter is given a word. The interpreter may be a shell, the
program that looks for one, or one that needs no file. -/
def start (words : List String) (name : String) (word : Option String) : Start :=
  let program := (Text.dropLeading? "/usr".toList name.toList).getD name.toList
  if shells.contains name then startShell name word
  else if systemFolders.contains name then .forbidden
  else if program == "/bin/true".toList then .printed ""
  else if program == "/bin/false".toList then .failed ""
  else if program == "/bin/echo".toList then
    .printed (String.intercalate " " (word.toList ++ words) ++ "\n")
  else if name == "/usr/bin/env" || name == "/bin/env" then
    match word with
    | some word =>
      if word == "sh" || word == "dash" || word == "bash" then .shell []
      else .failed (name ++ ": ‘" ++ word ++ "’: No such file or directory\n")
    | none => .failed (name ++ ": ‘" ++ words.head?.getD "" ++ "’: Permission denied\n")
  else .missing

/-- Runs a translator on a formula: the text that it gives and the files that it leaves. Every failure
is a text as well. -/
def run (files : Files) (path : String) (formula : Value) : String × Files :=
  match formula with
  | .text formula =>
    let absent := ("Error: Owl binary not found or not executable.", files)
    let forbidden := ("Error: [Errno 13] Permission denied: " ++ Text.quoted path, files)
    if formula.toList.contains '\x00' then ("Error: embedded null byte", files) else
    match files.entry? path with
    | none => absent
    | some .folder => forbidden
    | some (.file text runnable) =>
      if !runnable then forbidden
      else match interpreter? text with
        | none => ("Error: [Errno 8] Exec format error: " ++ Text.quoted path, files)
        | some (name, word) =>
          match start (arguments path formula) name word with
          | .missing => absent
          | .forbidden => forbidden
          | .printed text => (text, files)
          | .failed complaint => ("Error: " ++ complaint, files)
          | .shell switches =>
            let outcome := Shell.run files text (arguments path formula) switches
            (answer outcome, outcome.files)
  | v => ("Error: expected str, bytes or os.PathLike object, not " ++ v.sortName, files)
where
  answer (outcome : Shell.Outcome) : String :=
    match Text.ofOctets outcome.output, Text.ofOctets outcome.errors with
    | .error fault, _ => "Error: " ++ fault.message
    | _, .error fault => "Error: " ++ fault.message
    | .ok output, .ok errors =>
      if outcome.status = 0 then Text.unifyLines output else "Error: " ++ Text.unifyLines errors

def translate (files : Files) (path : String) (formula : Value) : String := (run files path formula).1

end Translator

structure Specification where
  formula : Value
  lookup : Fields
  translator : String
  automaton : Option String

namespace Specification

/-- What propositions stand for, as a table. With `wrapped` it was meant to be a table from the
start. -/
def lookupFields (lookup : Value) (wrapped : Bool) : Except Error Fields :=
  match lookup with
  | .object fields => .ok fields
  | v => .error (if wrapped then .lookupNotATable v.sortText else .lookupMismatch v.sortText)

/-- The specification from a formula, a lookup of propositions, the path of a translator and the
path of an automaton. Without an automaton there have to be a translator and a formula. -/
def make (formula lookup translator automaton : Value) (wrapped : Bool := false) :
    SessionM Specification := do
  let fields ← lookupFields lookup wrapped
  let text ←
    if automaton.isEmpty then pure none
    else do
      let path ← automaton.toTextOnly
      SessionM.say ("- An HOA path is provided; constructing the specification object from '" ++ path ++ "'")
      pure (some (Text.strip (← SessionM.readFile path)))
  let path ← translator.toTextOnly
  if !(← SessionM.files).exists? path && (text.getD "").isEmpty then throw (.translatorMissing path)
  if formula.isEmpty && automaton.isEmpty then throw .noSpecification
  return ⟨formula, fields, path, text⟩

/-- The text of the automaton. One that has to be made first is also written to a file. -/
def automatonText (s : Specification) (path : String) : SessionM (String × Specification) := do
  match s.automaton with
  | some text => return (text, s)
  | none =>
    let (text, files) := Translator.run (← SessionM.files) s.translator s.formula
    SessionM.change (fun _ => .ok files)
    SessionM.writeFile path text
    return (text, { s with automaton := some text })

def reading (formula : Value) (lookup : Fields) : Except Error Value :=
  match formula with
  | .text s => do
    let table ← lookup.mapM (fun (k, v) => do return (← k.toTextOnly, v.toText))
    return .text (Text.replaceBracketed table s)
  | v => if lookup.isEmpty then .ok v else .error .absentPart

def lookupTable (lookup : Fields) : Text.Table := lookup.map (fun (k, v) => (k.toText, v.toText))

end Specification

end Supermartingale
