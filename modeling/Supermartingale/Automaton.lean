import Supermartingale.Hoa
import Supermartingale.Value

/-!
# Automata

An automaton with acceptance by states, together with what its propositions stand for. Every
proposition is known by its number; the lookup table gives the part of the space it means.
-/

namespace Supermartingale

structure Automaton where
  start : String
  states : List State
  sets : List Int
  propositions : List String
  rejecting : List Int
  lookup : Text.Table

namespace Automaton

def lookupTable (propositions : List String) (table : Text.Table) : Text.Table :=
  propositions.mapIdx (fun i p => (toString i, Text.replaceTable false table p))

def ofHoa (hoa : Hoa) (states : List State) (table : Text.Table) : Except Error Automaton := do
  match hoa.header.propositions, hoa.header.acceptance with
  | some (_, propositions), some (_, sets) =>
    let sets := sets.map Int.ofNat
    let (states, rejecting) ← State.normalise states sets
    let start := hoa.header.start.elim "None" toString
    return ⟨start, states, sets, propositions, rejecting, lookupTable propositions table⟩
  | _, _ => throw .misapplied

def read (text : String) (table : Text.Table) : Except Error Automaton := do
  let hoa ← Hoa.read text
  let states ← hoa.states
  ofHoa hoa states table

def state (a : Automaton) (i : Int) : Except Error State := State.at? a.states i

def text (a : Automaton) : String :=
  "Automata(|Q|=" ++ toString a.states.length ++ ", q0=\x7b" ++ a.start ++ "\x7d, |Σ|=" ++
    toString a.propositions.length ++ ", F=\x7b" ++
    String.intercalate "," (a.sets.map toString) ++ "\x7d)"

def detailed (a : Automaton) : String :=
  a.text ++ "\n  → " ++ a.start ++ "\n " ++ String.intercalate "\n " (a.states.map (fun s => s.text a.lookup))

end Automaton

end Supermartingale
