import Supermartingale.Automaton

/-!
# Drawings of automata

The text of a drawing: every state is a node whose shape shows its signature and whose colour shows
its status, every transition an edge with its label.
-/

namespace Supermartingale.Automaton

def isPlainId (cs : List Char) : Bool :=
  let wordStart (c : Char) : Bool := c.isAlpha || c == '_'
  let isWord := match cs with
    | [] => false
    | c :: rest => wordStart c && rest.all (fun c => wordStart c || c.isDigit)
  let unsigned := match cs with
    | '-' :: rest => rest
    | rest => rest
  let whole := unsigned.takeWhile Char.isDigit
  let isNumeral := match unsigned.dropWhile Char.isDigit with
    | [] => !whole.isEmpty
    | '.' :: fraction => fraction.all Char.isDigit && !(whole.isEmpty && fraction.isEmpty)
    | _ => false
  isWord || isNumeral

def drawingWords : List String := ["node", "edge", "graph", "digraph", "subgraph", "strict"]

def escapeQuotes : Bool → List Char → List Char
  | _, [] => []
  | escaped, '"' :: cs => (if escaped then ['"'] else ['\\', '"']) ++ escapeQuotes false cs
  | escaped, '\\' :: cs => '\\' :: escapeQuotes (!escaped) cs
  | _, c :: cs => c :: escapeQuotes false cs

def drawingId (s : String) : String :=
  if isPlainId s.toList && !drawingWords.contains (String.ofList (s.toList.map Char.toLower)) then s
  else "\"" ++ String.ofList (escapeQuotes false s.toList) ++ "\""

def attributes (pairs : List (String × String)) : String :=
  " [" ++ String.intercalate " " (pairs.map (fun (k, v) => k ++ "=" ++ drawingId v)) ++ "]"

def colour : Status → String
  | .accepting => "lightblue"
  | .rejecting => "#FF6666"
  | .nonAccepting => "white"

def nodeLine (s : State) : String :=
  let signature :=
    if s.signature.isEmpty then ""
    else "\n\x7b" ++ String.intercalate ", " (s.signature.map toString) ++ "\x7d"
  let shape := if s.signature.isEmpty then "circle" else "doublecircle"
  "\t" ++ drawingId (toString s.id) ++ attributes [("label", toString s.id ++ signature),
    ("fillcolor", colour s.status), ("shape", shape), ("style", "filled")]

def edgeLine (lookup : Text.Table) (s : State) (t : Transition) : String :=
  "\t" ++ drawingId (toString s.id) ++ " -> " ++ drawingId (toString t.destination) ++
    attributes [("label", if t.isEpsilon then "ε" else t.labelText lookup)]

def drawing (a : Automaton) : String :=
  let nodes := a.states.map nodeLine
  let edges := a.states.flatMap (fun s => s.transitions.map (edgeLine a.lookup s))
  let start := ["\tstart" ++ attributes [("color", "black"), ("shape", "point")], "\tstart -> " ++ drawingId a.start]
  String.intercalate "\n" (["digraph \x7b", "\trankdir=LR"] ++ nodes ++ edges ++ start ++ ["\x7d", ""])

end Supermartingale.Automaton
