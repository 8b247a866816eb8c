/-!
# Replacing parts of a text

`replaceAll` puts a value in for the occurrences of a pattern from left to right, and never looks at
what it has put in. An empty pattern occurs in front of every character and at the end.
-/

namespace Supermartingale.Text

def dropLeading? : List Char → List Char → Option (List Char)
  | [], cs => some cs
  | _ :: _, [] => none
  | p :: ps, c :: cs => if p = c then dropLeading? ps cs else none

def interleave (value : List Char) : List Char → List Char
  | [] => value
  | c :: cs => value ++ c :: interleave value cs

/-- Replaces the occurrences of a pattern that is not empty; `skip` characters of the last
occurrence are still to be passed. -/
def replaceFrom (pattern value : List Char) : Nat → List Char → List Char
  | _, [] => []
  | skip + 1, _ :: cs => replaceFrom pattern value skip cs
  | 0, c :: cs =>
    match dropLeading? pattern (c :: cs) with
    | some _ => value ++ replaceFrom pattern value (pattern.length - 1) cs
    | none => c :: replaceFrom pattern value 0 cs

def replaceChars (pattern value cs : List Char) : List Char :=
  if pattern.isEmpty then interleave value cs else replaceFrom pattern value 0 cs

def replaceAll (pattern value s : String) : String := String.ofList (replaceChars pattern.toList value.toList s.toList)

def occursIn (pattern : List Char) : List Char → Bool
  | [] => pattern.isEmpty
  | c :: cs => (dropLeading? pattern (c :: cs)).isSome || occursIn pattern cs

def contains (pattern s : String) : Bool := occursIn pattern.toList s.toList

/-- Cuts a text at the occurrences of a separator that is not empty; `piece` holds the current
piece in reverse. -/
def splitFrom (separator : List Char) : Nat → List Char → List Char → List (List Char)
  | _, piece, [] => [piece.reverse]
  | skip + 1, piece, _ :: cs => splitFrom separator skip piece cs
  | 0, piece, c :: cs =>
    match dropLeading? separator (c :: cs) with
    | some _ => piece.reverse :: splitFrom separator (separator.length - 1) [] cs
    | none => splitFrom separator 0 (c :: piece) cs

def splitOn (separator s : String) : List String := (splitFrom separator.toList 0 [] s.toList).map String.ofList

/-- Every line ends in the same way, whichever of three ways it ended in. -/
def unifyChars (cs : List Char) : List Char := replaceChars ['\r'] ['\n'] (replaceChars ['\r', '\n'] ['\n'] cs)

def unifyLines (s : String) : String := String.ofList (unifyChars s.toList)

def blanks (n : Nat) : String := String.ofList (List.replicate n ' ')

def padRight (width : Nat) (s : String) : String := s ++ blanks (width - s.length)

def centre (width : Nat) (s : String) : String :=
  let room := width - s.length
  blanks (room / 2) ++ s ++ blanks (room - room / 2)

end Supermartingale.Text
