import Supermartingale.Automaton.Acceptance

/-!
# Automata in the Hanoi format

An automaton text has a header of items in any order and a body of states with their edges. A
header item that is repeated replaces the earlier one.
-/

namespace Supermartingale.Hoa

/-! ## Words and labels

A label is a boolean expression over the numbers of propositions. It is kept as it is written, with
its parentheses, and printed with blanks around its binary operators only. -/

/-! ## Words -/

def isSpace (c : Char) : Bool := c == ' ' || c == '\t' || c == '\x0c' || c == '\r' || c == '\n'

def skipSpaces (cs : List Char) : List Char := cs.dropWhile isSpace

def keywords : List String :=
  ["HOA:", "properties:", "States:", "Start:", "AP:", "Acceptance:", "tool:", "name:", "owlArgs:", "acc-name:"]

def properties : List String :=
  ["stutter-invariant", "implicit-labels", "explicit-labels", "inherently-weak", "no-univ-branch",
    "deterministic", "state-labels", "trans-labels", "univ-branch", "unambiguous", "state-acc",
    "trans-acc", "very-weak", "complete", "terminal", "colored", "tight", "weak"]

def fixedWords : List String :=
  ["generalized-Buchi", "Buchi", "Inf(", ")", "(", "&", "|", "!", "[", "]", "\x7b", "\x7d", "State:",
    "--BODY--", "--END--", "t", "f"]

def word? (w : String) (cs : List Char) : Option (List Char) := Text.dropLeading? w.toList (skipSpaces cs)

def numeral? (cs : List Char) : Option (List Char × List Char) :=
  let cs := skipSpaces cs
  match cs.takeWhile Char.isDigit with
  | [] => none
  | ds => some (ds, cs.dropWhile Char.isDigit)

/-- The inside of a quoted text, in reverse, and the rest behind the closing quote. -/
def quotedInside : List Char → List Char → Option (List Char × List Char)
  | _, [] => none
  | _, '\n' :: _ => none
  | acc, '"' :: cs => some (acc, cs)
  | _, '\\' :: '\n' :: _ => none
  | acc, '\\' :: c :: cs => quotedInside (c :: '\\' :: acc) cs
  | acc, c :: cs => quotedInside (c :: acc) cs

def quoted? (cs : List Char) : Option (String × List Char) :=
  match skipSpaces cs with
  | '"' :: cs =>
    (quotedInside [] cs).map (fun (inside, rest) => (Text.stripChars ['"'] (String.ofList inside.reverse), rest))
  | _ => none

def version? (cs : List Char) : Option (String × List Char) :=
  match skipSpaces cs with
  | 'v' :: cs =>
    match cs.takeWhile Text.isDecimal with
    | [] => none
    | ds => some (String.ofList ('v' :: ds), cs.dropWhile Text.isDecimal)
  | _ => none

def oneOf? : List String → List Char → Option (String × List Char)
  | [], _ => none
  | w :: ws, cs =>
    match word? w cs with
    | some rest => some (w, rest)
    | none => oneOf? ws cs

def startsWithWord (cs : List Char) : Bool :=
  (oneOf? (keywords ++ properties ++ fixedWords) cs).isSome || (numeral? cs).isSome ||
    (quoted? cs).isSome || (version? cs).isSome

def refuse (cs : List Char) : Error :=
  if (skipSpaces cs).isEmpty || startsWithWord cs then .unexpectedWord else .unexpectedText

def demand {α : Type} (read : List Char → Option α) (cs : List Char) : Except Error α :=
  match read cs with
  | some x => .ok x
  | none => .error (refuse cs)

/-! ## Labels -/

inductive LabelOp where
  | and
  | or
deriving DecidableEq, Repr

def LabelOp.sign : LabelOp → String
  | and => "&"
  | or => "|"

inductive Label where
  | truth (b : Bool)
  | index (digits : List Char)
  | not (e : Label)
  | paren (e : Label)
  | binary (l : Label) (op : LabelOp) (r : Label)
deriving DecidableEq, Repr

namespace Label

def render : Label → String
  | truth b => if b then "t" else "f"
  | index ds => String.ofList ds
  | not e => "!" ++ e.render
  | paren e => "(" ++ e.render ++ ")"
  | binary l op r => l.render ++ " " ++ op.sign ++ " " ++ r.render

def op? (cs : List Char) : Option (LabelOp × List Char) :=
  match word? "&" cs with
  | some rest => some (.and, rest)
  | none => (word? "|" cs).map (fun rest => (.or, rest))

def truth? (cs : List Char) : Option (Bool × List Char) :=
  (oneOf? ["true", "t", "false", "f"] cs).map (fun (w, rest) => (w == "true" || w == "t", rest))

mutual

/-- Reads a label. An operator takes all that follows as its right side, and so does a negation. -/
def read : Nat → List Char → Except Error (Label × List Char)
  | 0, cs => .error (refuse cs)
  | fuel + 1, cs =>
    match word? "!" cs with
    | some rest => do
      let (e, rest) ← read fuel rest
      return (not e, rest)
    | none => do
      let (l, rest) ← atom fuel cs
      match op? rest with
      | some (op, rest) =>
        let (r, rest) ← read fuel rest
        return (binary l op r, rest)
      | none => return (l, rest)

def atom : Nat → List Char → Except Error (Label × List Char)
  | 0, cs => .error (refuse cs)
  | fuel + 1, cs =>
    match word? "(" cs with
    | some rest => do
      let (e, rest) ← read fuel rest
      let rest ← demand (word? ")") rest
      return (paren e, rest)
    | none =>
      match numeral? cs with
      | some (ds, rest) => .ok (index ds, rest)
      | none =>
        match truth? cs with
        | some (b, rest) => .ok (truth b, rest)
        | none => .error (refuse cs)

end

def bracketed? (cs : List Char) : Except Error (Option Label × List Char) :=
  match word? "[" cs with
  | none => .ok (none, cs)
  | some rest => do
    let (e, rest) ← read (2 * rest.length + 2) rest
    let rest ← demand (word? "]") rest
    return (some e, rest)

end Label

end Supermartingale.Hoa

/-! ## Documents -/

namespace Supermartingale

namespace Hoa

structure Header where
  version : Option String := none
  tool : Option (List String) := none
  name : Option String := none
  arguments : Option (List String) := none
  start : Option Nat := none
  acceptanceName : Option String := none
  acceptance : Option (Nat × List Nat) := none
  properties : Option (List String) := none
  propositions : Option (Nat × List String) := none
  stateCount : Option Nat := none

structure Edge where
  label : Option Label
  destination : Nat
  signature : Option (List Nat)

structure Block where
  label : Option Label
  id : Nat
  doc : Option String
  signature : Option (List Nat)
  edges : List Edge

end Hoa

structure Hoa where
  header : Hoa.Header
  blocks : List Hoa.Block

namespace Hoa

/-! ## Reading -/

/-- The number that a numeral stands for, looked at when the text behind it shows that the part with
the numeral is over. -/
def settle (isOver : List Char → Bool) (rest ds : List Char) : Except Error Nat :=
  if ds.length ≤ digitLimit then .ok (digitsValue ds)
  else if isOver rest then .error .numeralTooLong
  else .error (refuse rest)

def opensItem (cs : List Char) : Bool := (oneOf? (keywords ++ ["--BODY--"]) cs).isSome

def opensEdge (cs : List Char) : Bool :=
  (oneOf? ["[", "State:", "--END--"] cs).isSome || (numeral? cs).isSome

def many {α : Type} (read : List Char → Option (α × List Char)) :
    Nat → List Char → List α × List Char
  | 0, cs => ([], cs)
  | fuel + 1, cs =>
    match read cs with
    | none => ([], cs)
    | some (x, rest) =>
      let (xs, rest) := many read fuel rest
      (x :: xs, rest)

def all {α : Type} (read : List Char → Option (α × List Char)) (cs : List Char) : List α × List Char :=
  many read cs.length cs

def atLeastOne {α : Type} (read : List Char → Option (α × List Char)) (cs : List Char) :
    Except Error (List α × List Char) := do
  let (x, rest) ← demand read cs
  let (xs, rest) := all read rest
  return (x :: xs, rest)

def readProperties : Nat → List Char → Except Error (List String × List Char)
  | 0, cs => .error (refuse cs)
  | fuel + 1, cs => do
    let (ps, rest) ← atLeastOne (oneOf? properties) cs
    match word? "properties:" rest with
    | some rest =>
      let (qs, rest) ← readProperties fuel rest
      return (ps ++ qs, rest)
    | none => return (ps, rest)

def readSet (cs : List Char) : Except Error (List Char × List Char) := do
  let (ds, rest) ← demand numeral? cs
  let rest ← demand (word? ")") rest
  return (ds, rest)

def readConjunction : Nat → List Char → Except Error (List (List Char) × List Char)
  | 0, cs => .error (refuse cs)
  | fuel + 1, cs => do
    let (ds, rest) ← readSet cs
    match word? "&" rest with
    | some rest =>
      let rest ← demand (word? "Inf(") rest
      let (more, rest) ← readConjunction fuel rest
      return (ds :: more, rest)
    | none => return ([ds], rest)

def readSets : Nat → List Char → Except Error (List Nat × List Char)
  | 0, cs => .error (refuse cs)
  | fuel + 1, cs =>
    match word? "Inf(" cs with
    | some rest => do
      let (sets, rest) ← readConjunction (rest.length + 1) rest
      let ns ← sets.mapM (settle (fun cs => opensItem cs || (word? "Inf(" cs).isSome) rest)
      let (more, rest) ← readSets fuel rest
      return (ns ++ more, rest)
    | none => .ok ([], cs)

def readItem (keyword : String) (h : Header) (cs : List Char) : Except Error (Header × List Char) := do
  match keyword with
  | "HOA:" =>
    let (v, rest) ← demand version? cs
    return ({ h with version := some v }, rest)
  | "properties:" =>
    let (ps, rest) ← readProperties (cs.length + 1) cs
    return ({ h with properties := some ps }, rest)
  | "States:" =>
    let (ds, rest) ← demand numeral? cs
    return ({ h with stateCount := some (← settle opensItem rest ds) }, rest)
  | "Start:" =>
    let (ds, rest) ← demand numeral? cs
    return ({ h with start := some (← settle opensItem rest ds) }, rest)
  | "AP:" =>
    let (ds, rest) ← demand numeral? cs
    let (names, rest) := all quoted? rest
    return ({ h with propositions := some (← settle opensItem rest ds, names) }, rest)
  | "Acceptance:" =>
    let (ds, rest) ← demand numeral? cs
    let (sets, rest) ← readSets (rest.length + 1) rest
    return ({ h with acceptance := some (← settle opensItem rest ds, sets) }, rest)
  | "tool:" =>
    let (xs, rest) ← atLeastOne quoted? cs
    return ({ h with tool := some xs }, rest)
  | "name:" =>
    let (s, rest) ← demand quoted? cs
    return ({ h with name := some s }, rest)
  | "owlArgs:" =>
    let (xs, rest) ← atLeastOne quoted? cs
    return ({ h with arguments := some xs }, rest)
  | _ =>
    match word? "generalized-Buchi" cs with
    | some rest =>
      let (ds, rest) ← demand numeral? rest
      return ({ h with acceptanceName := some (String.ofList ds) }, rest)
    | none =>
      let rest ← demand (word? "Buchi") cs
      return ({ h with acceptanceName := some "" }, rest)

def readHeader : Nat → Header → List Char → Except Error (Header × List Char)
  | 0, _, cs => .error (refuse cs)
  | fuel + 1, h, cs =>
    match oneOf? keywords cs with
    | some (keyword, rest) => do
      let (h, rest) ← readItem keyword h rest
      readHeader fuel h rest
    | none => do
      let rest ← demand (word? "--BODY--") cs
      return (h, rest)

def readSignature (cs : List Char) : Except Error (Option (List Nat) × List Char) :=
  match word? "\x7b" cs with
  | none => .ok (none, cs)
  | some rest => do
    let (sets, rest) := all numeral? rest
    let rest ← demand (word? "\x7d") rest
    return (some (← sets.mapM (settle opensEdge rest)), rest)

def readEdges : Nat → List Char → Except Error (List Edge × List Char)
  | 0, cs => .ok ([], cs)
  | fuel + 1, cs => do
    let (label, rest) ← Label.bracketed? cs
    match label, numeral? rest with
    | none, none => return ([], cs)
    | some _, none => throw (refuse rest)
    | label, some (ds, rest) =>
      let (signature, rest) ← readSignature rest
      let n ← settle opensEdge rest ds
      let (edges, rest) ← readEdges fuel rest
      return (⟨label, n, signature⟩ :: edges, rest)

def readBlock (cs : List Char) : Except Error (Block × List Char) := do
  let (label, rest) ← Label.bracketed? cs
  let (ds, rest) ← demand numeral? rest
  let (doc, rest) := match quoted? rest with
    | some (s, rest) => (some s, rest)
    | none => (none, rest)
  let (signature, rest) ← readSignature rest
  let id ← settle opensEdge rest ds
  let (edges, rest) ← readEdges (rest.length + 1) rest
  return (⟨label, id, doc, signature, edges⟩, rest)

def readBody : Nat → List Char → Except Error (List Block × List Char)
  | 0, cs => .error (refuse cs)
  | fuel + 1, cs =>
    match word? "State:" cs with
    | some rest => do
      let (block, rest) ← readBlock rest
      let (blocks, rest) ← readBody fuel rest
      return (block :: blocks, rest)
    | none => do
      let rest ← demand (word? "--END--") cs
      return ([], rest)

def read (s : String) : Except Error Hoa := do
  let cs := s.toList
  let (header, rest) ← readHeader (cs.length + 1) {} cs
  let (blocks, rest) ← readBody (rest.length + 1) rest
  if (skipSpaces rest).isEmpty then return ⟨header, blocks⟩
  else throw (refuse rest)

/-! ## States -/

def integers (ns : Option (List Nat)) : List Int := (ns.getD []).map Int.ofNat

def Edge.transition (e : Edge) : Except Error Transition :=
  match e.label with
  | none => .error .absentPart
  | some l => .ok (Transition.make e.destination (integers e.signature) l.render)

def Block.state (b : Block) : Except Error State := do
  let ts ← b.edges.mapM Edge.transition
  return State.make b.id (integers b.signature) ts (b.label.map Label.render) b.doc

def states (hoa : Hoa) : Except Error (List State) := hoa.blocks.mapM Block.state

end Hoa

end Supermartingale
