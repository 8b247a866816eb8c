import Supermartingale.Json
import Supermartingale.Path
import Supermartingale.Yaml

/-!
# Uploaded inputs

Uploaded files are read by what their names end in and merged into one object; a later field
replaces an earlier one of the same name. Other files are left aside. A list of pairs counts as an
object.
-/

namespace Supermartingale

namespace Upload

def pairField (v : Value) : Except Error (Key × Value) := do
  match ← v.members with
  | [k, w] =>
    match k.key? with
    | some k => return (k, w)
    | none => throw .misapplied
  | xs => throw (.notAPair xs.length)

def fieldsOf (v : Value) : Except Error Fields :=
  match v with
  | .object fields => .ok fields
  | v => do (← v.members).mapM pairField

def content (name text : String) : Except Error (Option Value) :=
  if Path.endsWith ".json" name then do return some (← Json.read text)
  else if Path.endsWith ".yaml" name || Path.endsWith ".yml" name then do
    return some (← Yaml.read text)
  else .ok none

def unify (files : List (String × String)) : Except Error Fields :=
  files.foldlM (fun fields (name, text) => do
    match ← content name text with
    | some v => return Value.setFields fields (← fieldsOf v)
    | none => return fields) []

def notice (count : Nat) : List String :=
  match count with
  | 0 => []
  | 1 => ["File uploaded successfully!"]
  | _ => ["Files uploaded successfully!"]

def receive (files : List (String × String)) : Except Error Value :=
  if files.isEmpty then .ok .null else do return .object (← unify files)

end Upload

end Supermartingale
