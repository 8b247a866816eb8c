import Supermartingale.Error

/-!
# Graphs of automaton states

A graph lists the successors of every node. The strongly connected components are read off one
depth-first search with a stack: the nodes that were found after a node from which no edge leads
back behind it are, with the node, a component.
-/

namespace Supermartingale

abbrev Graph := List (Int × List Int)

namespace Graph

def set (g : Graph) (v : Int) (ws : List Int) : Graph :=
  if g.any (fun (n, _) => n == v) then g.map (fun (n, us) => if n == v then (n, ws) else (n, us))
  else g ++ [(v, ws)]

/-- The graph of a list of nodes with their successors, where the last entry of a node counts. -/
def ofList (entries : List (Int × List Int)) : Graph := entries.foldl (fun g (v, ws) => g.set v ws) []

def successors (g : Graph) (v : Int) : List Int := (g.find? (fun (n, _) => n == v)).elim [] (·.2)

def nodes (g : Graph) : List Int := g.flatMap (fun (v, ws) => v :: ws)

/-! ## Components -/

/-- What the search for components has seen: the nodes it has found, in this order; those of them that
are in no component yet, the latest first; and the components that are complete. -/
structure Survey where
  found : List Int := []
  stack : List Int := []
  components : List (List Int) := []

namespace Survey

def number (s : Survey) (v : Int) : Nat := s.found.idxOf v

def enter (s : Survey) (v : Int) : Survey := { s with found := s.found ++ [v], stack := v :: s.stack }

def close (s : Survey) (v : Int) : Survey :=
  { s with
    stack := (s.stack.dropWhile (· != v)).tail
    components := s.components ++ [s.stack.takeWhile (· != v) ++ [v]] }

end Survey

/-- Looks at a successor of a node: searches it if it has not been found. The second part is the least
number known of a node on the stack to which an edge leads back. -/
def advance (search : Survey → Int → Survey × Nat) : Survey × Nat → Int → Survey × Nat
  | (s, low), w =>
    if s.found.contains w then
      (s, if s.stack.contains w then min low (s.number w) else low)
    else
      let (s, least) := search s w
      (s, min low least)

/-- Searches a node that has not been found, and what can be reached from it. If no edge leads back to
a node before it, the component of the node is complete. -/
def connect (g : Graph) : Nat → Survey → Int → Survey × Nat
  | 0, s, _ => (s, s.found.length)
  | fuel + 1, s, v =>
    let number := s.found.length
    let (s, low) := (g.successors v).foldl (advance (g.connect fuel)) (s.enter v, number)
    (if low == number then s.close v else s, low)

/-- Searches a node that may have been found. No path without repetition is longer than the number of
nodes. -/
def explore (g : Graph) (s : Survey) (v : Int) : Survey :=
  if s.found.contains v then s else (g.connect (g.nodes.length + 1) s v).1

def survey (g : Graph) : Survey := (g.map (·.1)).foldl g.explore {}

def components (g : Graph) : List (List Int) := g.survey.components

def isClosed (g : Graph) (vs : List Int) : Bool := vs.all (fun v => (g.successors v).all vs.contains)

/-! ## Search by positions -/

/-- The position that an index means in a sequence of this length; a negative index counts from the
end. -/
def position? (length : Nat) (i : Int) : Option Nat :=
  if 0 ≤ i then (if i < length then some i.toNat else none)
  else if -(length : Int) ≤ i then some (i + length).toNat
  else none

def markAll : List Int → List Bool → Except Error (List Bool × List Int)
  | [], marks => .ok (marks, [])
  | w :: ws, marks =>
    match position? marks.length w with
    | none => .error .missingPosition
    | some i =>
      if marks[i]?.getD false then markAll ws marks
      else do
        let (marks, fresh) ← markAll ws (marks.set i true)
        return (marks, w :: fresh)

/-- Marks what can be reached from the nodes of a queue. Every node enters the queue once. -/
def spread (g : Graph) : Nat → List Int → List Bool → Except Error (List Bool)
  | 0, _, marks => .ok marks
  | _ + 1, [], marks => .ok marks
  | fuel + 1, v :: queue, marks => do
    let (marks, fresh) ← markAll (g.successors v) marks
    g.spread fuel (queue ++ fresh) marks

def markStarts (starts : List Int) (marks : List Bool) : Except Error (List Bool) :=
  starts.foldlM (fun marks v =>
    match position? marks.length v with
    | none => .error .missingPosition
    | some i => .ok (marks.set i true)) marks

def accessible (g : Graph) (starts : List Int) : Except Error (List Bool) := do
  let marks ← markStarts starts (List.replicate g.length false)
  g.spread (starts.length + g.length + 1) starts marks

end Graph

end Supermartingale
