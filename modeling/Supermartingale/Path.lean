import Supermartingale.Text.Replace

/-!
# Paths

Paths are texts with slashes between names. They are handled as texts: nothing here asks whether
a path leads anywhere.
-/

namespace Supermartingale.Path

def isAbsolute (p : String) : Bool := p.toList.head? == some '/'

def join (base p : String) : String :=
  if isAbsolute p then p
  else if base.isEmpty || base.toList.getLast? == some '/' then base ++ p
  else base ++ "/" ++ p

def cut (p : String) : List Char × List Char :=
  let reversed := p.toList.reverse
  ((reversed.dropWhile (· != '/')).reverse, (reversed.takeWhile (· != '/')).reverse)

def folder (p : String) : String :=
  let (head, _) := cut p
  let bare := (head.reverse.dropWhile (· == '/')).reverse
  String.ofList (if bare.isEmpty then head else bare)

def name (p : String) : String := String.ofList (cut p).2

/-- Walks through the names of a path: a dot stays in place and two dots go up, at the root to no
effect and in front of a relative path as they stand. -/
def walk (absolute : Bool) : List String → List String → List String
  | done, [] => done.reverse
  | done, n :: rest =>
    if n.isEmpty || n == "." then walk absolute done rest
    else if n == ".." then
      match done with
      | [] => if absolute then walk absolute [] rest else walk absolute [".."] rest
      | d :: above =>
        if d == ".." then walk absolute (".." :: done) rest else walk absolute above rest
    else walk absolute (n :: done) rest

def names (p : String) : List String := walk (isAbsolute p) [] (Text.splitOn "/" p)

/-- A path without needless parts. Exactly two slashes at its start are kept. -/
def normalise (p : String) : String :=
  let body := String.intercalate "/" (names p)
  if isAbsolute p then
    let slashes := (p.toList.takeWhile (· == '/')).length
    (if slashes = 2 then "//" else "/") ++ body
  else if body.isEmpty then "."
  else body

def absolute (here p : String) : String := normalise (join here p)

def endsWith (ending p : String) : Bool := (Text.dropLeading? ending.toList.reverse p.toList.reverse).isSome

/-! ## Patterns -/

inductive Piece where
  | literal (c : Char)
  | anyOne
  | anyMany
  | oneOf (negated : Bool) (ranges : List (Char × Char))
deriving DecidableEq, Repr

namespace Piece

def ranges : List Char → List (Char × Char)
  | a :: '-' :: b :: rest => (a, b) :: ranges rest
  | c :: rest => (c, c) :: ranges rest
  | [] => []

/-- What stands between brackets, behind the opening one, and the rest behind the closing one. A
closing bracket right at the start stands for itself. -/
def bracketed? (cs : List Char) : Option (Piece × List Char) :=
  let (negated, cs) := match cs with
    | '!' :: rest => (true, rest)
    | cs => (false, cs)
  let (first, cs) := match cs with
    | ']' :: rest => ([']'], rest)
    | cs => ([], cs)
  match cs.dropWhile (· != ']') with
  | ']' :: rest => some (.oneOf negated (ranges (first ++ cs.takeWhile (· != ']'))), rest)
  | _ => none

def ofPattern : Nat → List Char → List Piece
  | 0, _ => []
  | _ + 1, [] => []
  | fuel + 1, c :: rest =>
    match c with
    | '*' => .anyMany :: ofPattern fuel rest
    | '?' => .anyOne :: ofPattern fuel rest
    | '[' => match bracketed? rest with
      | some (piece, rest) => piece :: ofPattern fuel rest
      | none => .literal '[' :: ofPattern fuel rest
    | c => .literal c :: ofPattern fuel rest

def admits : Piece → Char → Bool
  | literal d, c => c == d
  | anyOne, _ => true
  | anyMany, _ => true
  | oneOf negated ranges, c => ranges.any (fun (a, b) => a ≤ c && c ≤ b) != negated

def matchAll : List Piece → List Char → Bool
  | [], cs => cs.isEmpty
  | .anyMany :: ps, [] => matchAll ps []
  | .anyMany :: ps, c :: cs => matchAll ps (c :: cs) || matchAll (.anyMany :: ps) cs
  | p :: ps, c :: cs => p.admits c && matchAll ps cs
  | _ :: _, [] => false
termination_by ps cs => ps.length + cs.length

end Piece

def isPattern (p : String) : Bool := p.toList.any (fun c => c == '*' || c == '?' || c == '[')

/-- Whether a name fits a pattern. Names that start with a dot only fit patterns that do. -/
def fits (pattern name : String) : Bool :=
  let hidden (s : String) : Bool := s.toList.head? == some '.'
  (hidden pattern || !hidden name) && Piece.matchAll (Piece.ofPattern pattern.length pattern.toList) name.toList

end Supermartingale.Path
