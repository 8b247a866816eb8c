import Supermartingale.Error
import Supermartingale.Path

/-!
# Files

The files that a run reads and writes, as a value: texts under absolute paths, the folders that were
made, and links, which stand for other paths. A folder is also whatever something lies in.
-/

namespace Supermartingale

inductive Entry where
  | file (text : String) (runnable : Bool)
  | folder

/-- A tree of files, seen from one of its folders. -/
structure Files where
  here : String
  entries : List (String × Entry)
  links : List (String × String) := []

namespace Files

def empty (here : String) : Files := { here, entries := [] }

def leadsInto (outer inner : String) : Bool :=
  outer == "/" || (Text.dropLeading? (outer ++ "/").toList inner.toList).isSome

def linkLimit : Nat := 40

def follow (f : Files) : Nat → String → String
  | 0, path => path
  | n + 1, path =>
    match f.links.find? (fun (q, _) => q == path || leadsInto q path) with
    | none => path
    | some (q, target) =>
      let rest := (Text.dropLeading? q.toList path.toList).getD []
      f.follow n (Path.absolute (Path.folder q) (target ++ String.ofList rest))

def place (f : Files) (p : String) : String := f.follow linkLimit (Path.absolute f.here p)

def spot (f : Files) (p : String) : String :=
  let path := Path.absolute f.here p
  Path.join (f.follow linkLimit (Path.folder path)) (Path.name path)

def locate? (f : Files) (p : String) : Option String :=
  if p.isEmpty then none else some (f.place p)

def find? (f : Files) (path : String) : Option Entry :=
  match f.entries.find? (·.1 == path) with
  | some (_, e) => some e
  | none =>
    if path == f.here || leadsInto path f.here || f.entries.any (fun (p, _) => leadsInto path p) then
      some .folder
    else none

def entry? (f : Files) (p : String) : Option Entry := (f.locate? p).bind f.find?

def exists? (f : Files) (p : String) : Bool := (f.entry? p).isSome

def isFolder (f : Files) (p : String) : Bool :=
  match f.entry? p with
  | some .folder => true
  | _ => false

def isFile (f : Files) (p : String) : Bool :=
  match f.entry? p with
  | some (.file _ _) => true
  | _ => false

def isLink (f : Files) (p : String) : Bool := f.links.any (·.1 == f.spot p)

def absence (f : Files) (p : String) : Error :=
  let path := f.place p
  if f.entries.any (fun (q, e) => match e with
    | .file _ _ => leadsInto q path
    | .folder => false) then .notAFolder p
  else .noSuchFile p

def read (f : Files) (p : String) : Except Error String :=
  match f.entry? p with
  | some (.file text _) => .ok (Text.unifyLines text)
  | some .folder => .error (.isFolder p)
  | none => .error (f.absence p)

def set (f : Files) (path : String) (e : Entry) : Files :=
  if f.entries.any (·.1 == path) then
    { f with entries := f.entries.map (fun (q, old) => if q == path then (q, e) else (q, old)) }
  else { f with entries := f.entries ++ [(path, e)] }

def put (f : Files) (p text : String) (runnable : Bool) : Files := f.set (f.place p) (.file text runnable)

def write (f : Files) (p text : String) : Except Error Files :=
  match f.entry? p with
  | some .folder => .error (.isFolder p)
  | some (.file _ runnable) => .ok (f.put p text runnable)
  | none =>
    match f.find? (Path.folder (f.place p)) with
    | some .folder => if p.isEmpty then .error (.noSuchFile p) else .ok (f.put p text false)
    | some (.file _ _) => .error (.notAFolder p)
    | none => .error (f.absence p)

def append (f : Files) (p text : String) : Except Error Files := do
  let before := match f.entry? p with
    | some (.file before _) => before
    | _ => ""
  f.write p (before ++ text)

def remove (f : Files) (p : String) : Files :=
  let path := f.spot p
  { f with entries := f.entries.filter (·.1 != path), links := f.links.filter (·.1 != path) }

def link (f : Files) (p target : String) : Files := { f with links := f.links ++ [(f.spot p, target)] }

def makeFolder (f : Files) (p : String) : Except Error Files :=
  let path := f.place p
  match f.absence p with
  | .notAFolder p => .error (.notAFolder p)
  | _ => .ok (f.set path .folder)

def list (f : Files) (p : String) : List String :=
  let path := f.place p
  let inside := (f.entries.map Prod.fst ++ f.links.map Prod.fst).filterMap (fun q =>
    Text.dropLeading? (if path == "/" then ['/'] else (path ++ "/").toList) q.toList)
  (inside.map (fun cs => String.ofList (cs.takeWhile (· != '/')))).eraseDups

/-- The paths that fit a pattern, whose names may be patterns at every level; with `folders` only
those of folders. -/
def matching (f : Files) : Nat → Bool → String → List String
  | 0, _, _ => []
  | fuel + 1, folders, pattern =>
    let outer := Path.folder pattern
    let name := Path.name pattern
    let places := if Path.isPattern outer && outer != pattern then f.matching fuel true outer
      else [outer]
    places.flatMap (fun place =>
      let found := (f.list place).filter (fun n => Path.fits name n && (!folders || f.isFolder (Path.join place n)))
      if Path.isPattern name then found.map (Path.join place)
      else if name.isEmpty then (if f.isFolder place then [Path.join place ""] else [])
      else if f.exists? (Path.join place name) then [Path.join place name]
      else [])

def glob (f : Files) (pattern : String) : List String := f.matching (pattern.length + 1) false pattern

end Files

end Supermartingale
