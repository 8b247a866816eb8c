import Supermartingale.Yaml.Scalar
import Supermartingale.Yaml.Token

/-!
# YAML documents

The value that a YAML document stands for. A mapping may take over the fields of others behind a
merge key; its own fields come after them and replace them in place.
-/

namespace Supermartingale.Yaml

/-! ## Nodes

The words of a document form a tree of scalars, sequences and mappings. A node may have a tag and a
name by which later nodes refer to it. -/

inductive Node where
  | scalar (tag : Tag) (text : String)
  | sequence (tag : Tag) (items : List Node)
  | mapping (tag : Tag) (entries : List (Node × Node))
  | circular

instance : Inhabited Node := ⟨.circular⟩

namespace Node

def tag : Node → Tag
  | scalar t _ => t
  | sequence t _ => t
  | mapping t _ => t
  | circular => .other ""

def absent : Node := .scalar .null ""

/-- What is known while the nodes are put together: the words to come, the handles of tags, and the
nodes that have a name, as far as they are complete. -/
structure Progress where
  tokens : Tokens
  handles : List (String × String) := []
  anchors : List (String × Option Node) := []

abbrev Build (α : Type) := StateT Progress (Except Error) α

def peek : Build Token := do
  let p ← get
  let (t, tokens) ← liftM p.tokens.next
  set { p with tokens }
  return t

def take : Build Unit := modify (fun p => { p with tokens := p.tokens.drop })

def usualHandles : List (String × String) := [("!", "!"), ("!!", Tag.commonStart)]

def tagName (handle : Option String) (suffix : String) : Build String := do
  match handle with
  | none => return suffix
  | some h =>
    match (← get).handles.find? (·.1 == h) with
    | some (_, start) => return start ++ suffix
    | none => throw .malformedYaml

def properties : Build (Option String × Option String) := do
  match ← peek with
  | .anchor a =>
    take
    match ← peek with
    | .tag h s =>
      take
      return (some a, some (← tagName h s))
    | _ => return (some a, none)
  | .tag h s =>
    take
    match ← peek with
    | .anchor a =>
      take
      return (some a, some (← tagName h s))
    | _ => return (none, some (← tagName h s))
  | _ => return (none, none)

def announce (anchor : Option String) : Build Unit := do
  match anchor with
  | none => return ()
  | some a =>
    if (← get).anchors.any (·.1 == a) then throw .looseYaml
    modify (fun p => { p with anchors := (a, none) :: p.anchors })

def complete (anchor : Option String) (n : Node) : Build Node := do
  match anchor with
  | none => return n
  | some a =>
    modify (fun p => { p with anchors := (a, some n) :: p.anchors.filter (·.1 != a) })
    return n

def referred (name : String) : Build Node := do
  match (← get).anchors.find? (·.1 == name) with
  | some (_, some n) => return n
  | some (_, none) => return .circular
  | none => throw .looseYaml

def collectionTag (tag : Option String) (usual : Tag) : Tag :=
  match tag with
  | none => usual
  | some "!" => usual
  | some name => Tag.ofName name

/-- The tag of a scalar. -/
def scalarTag (tag : Option String) (text : String) (plain : Bool) : Tag :=
  match tag with
  | none => if plain then impliedTag text else .text
  | some "!" => impliedTag text
  | some name => Tag.ofName name

mutual

/-- A node. In a block it may be a block of its own, and with `indentless` a sequence at the column
of its key. -/
def node : Nat → Bool → Bool → Build Node
  | 0, _, _ => throw .malformedYaml
  | fuel + 1, block, indentless => do
    if let .alias name ← peek then
      take
      return ← referred name
    let (anchor, tag) ← properties
    let inner (isOpening : Bool) (build : Build Node) : Build Node := do
      announce anchor
      if isOpening then take
      complete anchor (← build)
    match ← peek with
    | .scalar text plain =>
      take
      inner false (return .scalar (scalarTag tag text plain) text)
    | .flowSequenceStart => inner true (do
      let parts ← flowParts fuel .flowSequenceEnd true
      return .sequence (collectionTag tag .sequence) (parts.map fun
        | (n, none) => n
        | (k, some v) => .mapping .mapping [(k, v)]))
    | .flowMappingStart => inner true (do
      let parts ← flowParts fuel .flowMappingEnd true
      return .mapping (collectionTag tag .mapping) (parts.map fun (k, v) => (k, v.getD absent)))
    | t =>
      if t == .blockEntry && indentless then
        inner false (return .sequence (collectionTag tag .sequence) (← indentlessItems fuel))
      else if t == .blockSequenceStart && block then
        inner true (return .sequence (collectionTag tag .sequence) (← blockItems fuel))
      else if t == .blockMappingStart && block then
        inner true (return .mapping (collectionTag tag .mapping) (← blockEntries fuel))
      else if anchor.isSome || tag.isSome then
        inner false (return .scalar (scalarTag tag "" true) "")
      else throw .malformedYaml

def nodeUnless : Nat → List Token → Bool → Bool → Build Node
  | 0, _, _, _ => throw .malformedYaml
  | fuel + 1, words, block, indentless => do
    if words.contains (← peek) then return absent else node fuel block indentless

def blockItems : Nat → Build (List Node)
  | 0 => throw .malformedYaml
  | fuel + 1 => do
    match ← peek with
    | .blockEntry =>
      take
      let n ← nodeUnless fuel [.blockEntry, .blockEnd] true false
      return n :: (← blockItems fuel)
    | .blockEnd =>
      take
      return []
    | _ => throw .malformedYaml

def indentlessItems : Nat → Build (List Node)
  | 0 => throw .malformedYaml
  | fuel + 1 => do
    match ← peek with
    | .blockEntry =>
      take
      let n ← nodeUnless fuel [.blockEntry, .key, .value, .blockEnd] true false
      return n :: (← indentlessItems fuel)
    | _ => return []

def entryValue : Nat → List Token → Bool → Build Node
  | 0, _, _ => throw .malformedYaml
  | fuel + 1, words, block => do
    match ← peek with
    | .value =>
      take
      nodeUnless fuel words block block
    | _ => return absent

def blockEntries : Nat → Build (List (Node × Node))
  | 0 => throw .malformedYaml
  | fuel + 1 => do
    let words : List Token := [.key, .value, .blockEnd]
    match ← peek with
    | .key =>
      take
      let k ← nodeUnless fuel words true true
      let v ← entryValue fuel words true
      return (k, v) :: (← blockEntries fuel)
    | .blockEnd =>
      take
      return []
    | _ => throw .malformedYaml

/-- The members of a collection on one line, up to the word that closes it; a member with a key has a value. -/
def flowParts : Nat → Token → Bool → Build (List (Node × Option Node))
  | 0, _, _ => throw .malformedYaml
  | fuel + 1, close, first => do
    if (← peek) == close then
      take
      return []
    if !first then
      if (← peek) == .flowEntry then take else throw .malformedYaml
    match ← peek with
    | .key =>
      take
      let words : List Token := [.flowEntry, close]
      let k ← nodeUnless fuel (.value :: words) false false
      let v ← entryValue fuel words false
      return (k, some v) :: (← flowParts fuel close false)
    | t =>
      if t == close then
        take
        return []
      let n ← node fuel false false
      return (n, none) :: (← flowParts fuel close false)

end

/-! ## Documents -/

def directives : Nat → Bool → List (String × String) → Build (List (String × String))
  | 0, _, handles => return handles
  | fuel + 1, versioned, handles => do
    match ← peek with
    | .directive d =>
      take
      match d with
      | .version major _ =>
        if versioned || major ≠ 1 then throw .malformedYaml
        directives fuel true handles
      | .handle name start =>
        if handles.any (·.1 == name) then throw .malformedYaml
        directives fuel versioned (handles ++ [(name, start)])
      | .other => directives fuel versioned handles
    | _ => return handles

def documentStart (fuel : Nat) : Build Unit := do
  let handles ← directives fuel false []
  if (← peek) != .documentStart then throw .malformedYaml
  take
  modify (fun p => { p with handles := handles ++ usualHandles })

def documentEnds : Nat → Build Unit
  | 0 => return ()
  | fuel + 1 => do
    if (← peek) == .documentEnd then
      take
      documentEnds fuel

def isDirective : Token → Bool
  | .directive _ => true
  | _ => false

def document (fuel : Nat) : Build (Option Node) := do
  let first ← peek
  if first == .streamEnd then return none
  let root ←
    if isDirective first || first == .documentStart then do
      documentStart fuel
      let t ← peek
      if isDirective t then pure absent
      else nodeUnless fuel [.documentStart, .documentEnd, .streamEnd] true false
    else do
      modify (fun p => { p with handles := usualHandles })
      node fuel true false
  documentEnds fuel
  if (← peek) != .streamEnd then
    documentStart fuel
    throw .looseYaml
  return some root

def read? (cs : List Char) : Except Error (Option Node) :=
  if cs.all isPrintable then do
    let build := document (16 * cs.length + 64)
    return (← build.run { tokens := Tokens.ofText cs }).1
  else .error .unprintableYaml

end Node

/-! ## Documents -/

namespace Node

mutual

def plainText? : Node → Option String
  | .scalar _ s => some s
  | .mapping _ entries => entryText? entries
  | _ => none

def entryText? : List (Node × Node) → Option String
  | [] => none
  | (k, v) :: entries => if k.tag == .value then plainText? v else entryText? entries

end

mutual

def value : Node → Except Error Value
  | .circular => .error .circular
  | .scalar tag s => scalarValue tag s
  | .sequence tag items =>
    match tag with
    | .sequence => do return .list (← values items)
    | .pairs => do return .list (← pairValues items)
    | _ => .error .valuelessYaml
  | .mapping tag entries =>
    match tag with
    | .mapping => do
      let (merged, own) ← fields entries
      return .object (Value.setFields [] (merged ++ own))
    | .set => do
      let (merged, own) ← fields entries
      let keys := (Value.setFields [] (merged ++ own)).map (fun (k, _) => k.inner)
      let text := if keys.isEmpty then "set()"
        else "\x7b" ++ String.intercalate ", " keys ++ "\x7d"
      return .foreign ⟨"set", text, text⟩
    | tag => (entryText? entries).elim (.error .valuelessYaml) (scalarValue tag)

def values : List Node → Except Error (List Value)
  | [] => .ok []
  | n :: ns => do return (← value n) :: (← values ns)

def pairValues : List Node → Except Error (List Value)
  | [] => .ok []
  | .mapping _ [(k, v)] :: ns => do return .list [← value k, ← value v] :: (← pairValues ns)
  | _ :: _ => .error .valuelessYaml

def fields : List (Node × Node) → Except Error (Fields × Fields)
  | [] => .ok ([], [])
  | (k, v) :: entries => do
    if k.tag == .merge then
      let taken ← takenFields v
      let (merged, own) ← fields entries
      return (taken ++ merged, own)
    else
      let key ← if k.tag == .value then pure (some (.text "=")) else do pure (← value k).key?
      match key with
      | none => throw .valuelessYaml
      | some key =>
        let w ← value v
        let (merged, own) ← fields entries
        return (merged, (key, w) :: own)

/-- The fields that a merge key takes over: those of a mapping, or of several, the last one
first. -/
def takenFields : Node → Except Error Fields
  | .mapping _ entries => do
    let (merged, own) ← fields entries
    return merged ++ own
  | .sequence _ items => takenFromAll items
  | _ => .error .valuelessYaml

def takenFromAll : List Node → Except Error Fields
  | [] => .ok []
  | .mapping _ entries :: ns => do
    let (merged, own) ← fields entries
    return (← takenFromAll ns) ++ (merged ++ own)
  | _ :: _ => .error .valuelessYaml

end

end Node

def read (s : String) : Except Error Value := do
  match ← Node.read? s.toList with
  | some n => n.value
  | none => return .null

end Supermartingale.Yaml
