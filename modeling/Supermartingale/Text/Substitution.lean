import Supermartingale.Error
import Supermartingale.Text.Replace

/-!
# Substitution by tables

A table gives texts for keys. The functions here differ in how they keep what they put in apart
from what is still to be replaced: by marks around the keys, by reading the text once from left
to right, or not at all.
-/

namespace Supermartingale.Text

abbrev Table := List (String × String)

/-- Replaces the keys of a table in two rounds: the first puts marks around every key, the second
replaces the marked keys. -/
def replaceMarked (mark : String → String) (value : String → String) (table : Table) (s : String) : String :=
  let marked := table.foldl (fun s (k, _) => replaceAll k (mark k) s) s
  table.foldl (fun s (k, v) => replaceAll (mark k) (value v) s) marked

def replaceTable (bracket : Bool) (table : Table) (s : String) : String :=
  replaceMarked (fun k => "'''" ++ k ++ "'''") (fun v => if bracket then "(" ++ v ++ ")" else v)
    table s

def replaceBracketed (table : Table) (s : String) : String :=
  replaceMarked (fun k => "##" ++ k ++ "##") (fun v => "(" ++ v ++ ")") table s

def revertTable (table : Table) (s : String) : String := table.foldl (fun s (k, v) => replaceAll v k s) s

/-- Replaces the keys of a table one after the other, and starts over as long as something
changes, at most `rounds` times. -/
def exhaustTable (table : Table) : Nat → String → String
  | 0, s => s
  | rounds + 1, s =>
    let (t, changed) := table.foldl (fun (s, changed) (k, v) =>
      let t := replaceAll k v s
      (t, changed || t != s)) (s, false)
    if changed then exhaustTable table rounds t else t

def firstKey? (table : List (List Char × List Char)) (advance : Bool) (cs : List Char) :
    Option (List Char × List Char) :=
  table.find? (fun (k, _) => (dropLeading? k cs).isSome && !(advance && k.isEmpty))

/-- Reads a text once from the left and replaces at every position the first key of the table
that stands there. After an empty key another key may still stand at the same position. -/
def replaceFirstFrom (table : List (List Char × List Char)) : Nat → List Char → List Char
  | _, [] => (firstKey? table false []).elim [] (·.2)
  | skip + 1, _ :: cs => replaceFirstFrom table skip cs
  | 0, c :: cs =>
    match firstKey? table false (c :: cs) with
    | some (_ :: key, v) => v ++ replaceFirstFrom table key.length cs
    | some ([], v) =>
      match firstKey? table true (c :: cs) with
      | some (_ :: key, w) => v ++ w ++ replaceFirstFrom table key.length cs
      | _ => v ++ c :: replaceFirstFrom table 0 cs
    | none => c :: replaceFirstFrom table 0 cs

/-- Replaces keys in one pass from the left. A table without keys has nothing to put in where it
matches, which is everywhere. -/
def replaceFirst (table : Table) (s : String) : Except Error String :=
  if table.isEmpty then .error (.missingKey "")
  else
    let entries := table.map (fun (k, v) => (k.toList, v.toList))
    .ok (String.ofList (replaceFirstFrom entries 0 s.toList))

end Supermartingale.Text
