import Supermartingale.Automaton.Graph
import Supermartingale.Text.Substitution

/-!
# Acceptance of states

A transition with a signature is led through a fresh state that carries the signature, so that afterwards only states
accept. States from which no accepting state can be reached are rejecting; states in a closed component that meets all
acceptance sets are accepting.
-/

namespace Supermartingale

/-! ## States

A state of an automaton has a number, a signature (the acceptance sets it belongs to), outgoing
transitions and a status. A transition has a label over propositions; the labels that are always
true are written as no label at all. -/

inductive Status where
  | accepting
  | nonAccepting
  | rejecting
deriving DecidableEq, Repr

namespace Status

def sign : Status → String
  | accepting => "(●)"
  | rejecting => "(✗)"
  | nonAccepting => "( )"

def word : Status → String
  | accepting => "accepting"
  | nonAccepting => "non-accepting"
  | rejecting => "rejecting"

def name : Status → String
  | accepting => "Accepting"
  | nonAccepting => "NonAccepting"
  | rejecting => "Rejecting"

/-- The status that a word or its abbreviation means; any other text means neither accepting nor
rejecting. -/
def ofText (s : String) : Status :=
  if s == "accepting" || s == "acc" then accepting
  else if s == "rejecting" || s == "rej" then rejecting
  else nonAccepting

def ofSignature (signature : List Int) : Status :=
  if signature.isEmpty then nonAccepting else accepting

end Status

def signatureText (signature : List Int) : String := "\x7b" ++ String.intercalate "," (signature.map toString) ++ "\x7d"

structure Transition where
  destination : Int
  signature : List Int
  label : String

namespace Transition

def epsilonLabels : List String := ["epsilon", "e", "any", "t", ""]

/-- A transition; a label that is always true is dropped. -/
def make (destination : Int) (signature : List Int) (label : String) : Transition :=
  ⟨destination, signature, if epsilonLabels.contains (Text.strip label) then "" else label⟩

def isEpsilon (t : Transition) : Bool := t.label.isEmpty

def status (t : Transition) : Status := .ofSignature t.signature

def labelText (t : Transition) (lookup : Text.Table) : String := Text.replaceTable true lookup t.label

def text (t : Transition) (lookup : Text.Table) : String :=
  "[" ++ (if t.isEpsilon then "ε" else t.labelText lookup) ++ "] -> " ++ toString t.destination ++
    (if t.signature.isEmpty then "" else " " ++ signatureText t.signature)

end Transition

structure State where
  id : Int
  signature : List Int
  transitions : List Transition
  label : Option String
  doc : Option String
  status : Status

namespace State

def make (id : Int) (signature : List Int) (transitions : List Transition) (label doc : Option String) : State :=
  ⟨id, signature, transitions, label, doc, .ofSignature signature⟩

def isAccepting (s : State) : Bool := s.status == .accepting

def isRejecting (s : State) : Bool := s.status == .rejecting

def hasSignature (s : State) : Bool := !s.signature.isEmpty

def inSignature (s : State) (set : Int) : Bool := s.signature.contains set

def shown (s : Option String) (wrap : String → String) : String :=
  match s with
  | some s => if s.isEmpty then "" else wrap s
  | none => ""

def text (s : State) (lookup : Text.Table) : String :=
  " -" ++ s.status.sign ++ Text.centre 3 (toString s.id) ++
    shown s.label (fun l => " (" ++ l ++ ")") ++
    shown s.doc (fun d => " \"" ++ d ++ "\"") ++
    (if s.signature.isEmpty then "" else " " ++ signatureText s.signature) ++
    String.join (s.transitions.map (fun t => "\n\t  " ++ t.text lookup))

end State

namespace State

/-- Leads the transitions of a state that have a signature through fresh states, numbered from
`next`. The step back from a fresh state leads to `id`. -/
def reroute (id : Int) (next : Nat) : List Transition → List Transition × List State
  | [] => ([], [])
  | t :: ts =>
    if t.signature.isEmpty then
      let (ts, fresh) := reroute id next ts
      (t :: ts, fresh)
    else
      let forward := Transition.make next [] t.label
      let back := Transition.make id [] ""
      let state := State.make next t.signature [back] (some "") (some "")
      let (ts, fresh) := reroute id (next + 1) ts
      (forward :: ts, state :: fresh)

def rerouteAll (next : Nat) : List State → List State × List State
  | [] => ([], [])
  | s :: ss =>
    let (ts, fresh) := reroute s.id next s.transitions
    let (ss, more) := rerouteAll (next + fresh.length) ss
    ({ s with transitions := ts } :: ss, fresh ++ more)

def toStateAcceptance (states : List State) : List State :=
  let (old, fresh) := rerouteAll states.length states
  old ++ fresh

/-! ## Graphs of states -/

def graph (states : List State) (excluded : List Int) : Graph :=
  Graph.ofList ((states.filter (fun s => !excluded.contains s.id)).map (fun s =>
    (s.id, (s.transitions.map (·.destination)).filter (fun d => !excluded.contains d))))

def addEdge (g : Graph) (v w : Int) : Except Error Graph :=
  if g.any (fun (n, _) => n == v) then
    .ok (g.map (fun (n, ws) => if n == v then (n, ws ++ [w]) else (n, ws)))
  else .error (.missingKey (toString v))

def reverseGraph (states : List State) : Except Error Graph :=
  let empty := Graph.ofList (states.map (fun s => (s.id, [])))
  states.foldlM (fun g s => s.transitions.foldlM (fun g t => addEdge g t.destination s.id) g) empty

def falsePositions (marks : List Bool) : List Int :=
  (marks.mapIdx (fun i b => (Int.ofNat i, b))).filterMap (fun (i, b) => if b then none else some i)

def rejectingStates (states : List State) : Except Error (List Int) := do
  let g ← reverseGraph states
  let accepting := (states.filter isAccepting).map (·.id)
  return falsePositions (← g.accessible accepting)

/-- The state at a position; a negative position counts from the end. -/
def at? (states : List State) (i : Int) : Except Error State :=
  match (Graph.position? states.length i).bind (fun k => states[k]?) with
  | some s => .ok s
  | none => .error .missingPosition

def signatures (states : List State) (ids : List Int) : Except Error (List Int) := do
  let members ← ids.mapM (fun i => at? states i)
  return members.flatMap (·.signature)

/-- The closed components without excluded states that meet all acceptance sets. -/
def acceptingComponents (states : List State) (sets excluded : List Int) : Except Error (List (List Int)) :=
  let g := graph states excluded
  let closed := g.components.filter g.isClosed
  closed.filterMapM (fun c => do
    let met ← signatures states c
    return if sets.all met.contains then some c else none)

def classify (rejecting accepting : List Int) (i : Nat) : Status :=
  if rejecting.contains (i : Int) then .rejecting
  else if accepting.contains (i : Int) then .accepting
  else .nonAccepting

/-- States with acceptance by states only and their final status, and the rejecting ones. -/
def normalise (states : List State) (sets : List Int) : Except Error (List State × List Int) := do
  let states := toStateAcceptance states
  let rejecting ← rejectingStates states
  let components ← acceptingComponents states sets rejecting
  let accepting := components.flatten
  return (states.mapIdx (fun i s => { s with status := classify rejecting accepting i }), rejecting)

end State

end Supermartingale
