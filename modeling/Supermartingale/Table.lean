import Supermartingale.Decimal.Fixed
import Supermartingale.Number.Spelling
import Supermartingale.Text.Replace
import Supermartingale.Value

/-!
# Tables of results

A table has named columns of values and is drawn with a line around every cell. A column in which
all values are numbers, or texts that spell numbers, stands at the right with its points below each
other; any other stands at the left.
-/

namespace Supermartingale.Text

def endsLine (c : Char) : Bool :=
  let n := c.toNat
  (10 ≤ n && n ≤ 13) || (28 ≤ n && n ≤ 30) || n == 0x85 || n == 0x2028 || n == 0x2029

/-- The lines of a text; `line` holds the current one in reverse, and is none at its start. -/
def linesFrom : Option (List Char) → List Char → List (List Char)
  | none, [] => []
  | some line, [] => [line.reverse]
  | line, '\r' :: '\n' :: cs => (line.getD []).reverse :: linesFrom none cs
  | line, c :: cs =>
    if endsLine c then (line.getD []).reverse :: linesFrom none cs
    else linesFrom (some (c :: line.getD [])) cs

def splitLines (s : String) : List String := (linesFrom none s.toList).map String.ofList

/-! ## Control sequences of terminals -/

def inRange (low high : Nat) (c : Char) : Bool := low ≤ c.toNat && c.toNat ≤ high

def afterSequence? (cs : List Char) : Option (List Char) :=
  match (cs.dropWhile (inRange 0x30 0x3f)).dropWhile (inRange 0x20 0x2f) with
  | c :: rest => if inRange 0x40 0x7e c then some rest else none
  | [] => none

def escapeMark : Char := '\x1b'

def link? (cs : List Char) : Option (List Char × List Char) :=
  let word (c : Char) : Bool := c.isAlphanum || c == '_' || c == '=' || c == ':'
  match cs.dropWhile word with
  | ';' :: rest =>
    let address := rest.takeWhile (· != escapeMark)
    match dropLeading? [escapeMark, '\\'] (rest.dropWhile (· != escapeMark)) with
    | none => none
    | some rest =>
      let shown := rest.takeWhile (· != escapeMark)
      let close := escapeMark :: "]8;;".toList ++ [escapeMark, '\\']
      if address.isEmpty || shown.isEmpty then none
      else (dropLeading? close (rest.dropWhile (· != escapeMark))).map (shown, ·)
  | _ => none

def visibleWithin : Nat → List Char → List Char
  | 0, _ => []
  | _ + 1, [] => []
  | fuel + 1, c :: cs =>
    if c != escapeMark then c :: visibleWithin fuel cs
    else match cs with
      | '[' :: rest => match afterSequence? rest with
        | some rest => visibleWithin fuel rest
        | none => c :: visibleWithin fuel cs
      | ']' :: '8' :: ';' :: rest => match link? rest with
        | some (shown, rest) => shown ++ visibleWithin fuel rest
        | none => c :: visibleWithin fuel cs
      | cs => c :: visibleWithin fuel cs

def visible (s : String) : String := String.ofList (visibleWithin (s.length + 1) s.toList)

end Supermartingale.Text

/-! ## Tables -/

namespace Supermartingale

structure Table where
  columns : List (String × List Value)

namespace Table

inductive Content where
  | absent
  | truth
  | whole
  | real
  | words
deriving DecidableEq, Repr

namespace Content

def rank : Content → Nat
  | absent => 0
  | truth => 1
  | whole => 2
  | real => 3
  | words => 4

def join (a b : Content) : Content := if a.rank < b.rank then b else a

def ofText (s : String) : Content :=
  if s == "True" || s == "False" then truth
  else if (Number.whole? s).isSome then whole
  else match Number.real? s with
    | none => words
    | some x =>
      if x.isInf || x.isNaN then
        (if ["inf", "-inf", "nan"].contains (String.ofList (s.toList.map Char.toLower)) then real
          else words)
      else real

def ofValue : Value → Content
  | .null => absent
  | .bool _ => truth
  | .number (.int _) => whole
  | .number (.double _) => real
  | .text s => ofText (Text.visible s)
  | _ => words

def ofColumn (values : List Value) : Content := values.foldl (fun s v => join s (ofValue v)) truth

def isNumeric (s : Content) : Bool := s == whole || s == real

end Content

def cellText (s : Content) (v : Value) : Except Error String :=
  match v, s with
  | .null, _ => .ok ""
  | .text t, .real =>
    let raw := Text.visible t
    match Number.real? raw with
    | some x => .ok (Text.replaceAll raw (Double.general x) t)
    | none => .error (.notANumber raw)
  | v, .real => do return Double.general (← liftFault (← v.toNumber).toDouble)
  | v, _ => .ok v.toText

def extent (s : String) : Nat := (Text.visible s).length

def rows (s : String) : List String := Text.splitOn "\n" (Text.replaceAll "\r" "\n" s)

/-- The width of a cell; only in a table with several lines in a cell are its lines told apart. -/
def width (cut : Bool) (s : String) : Nat :=
  if cut then (rows s).foldl (fun w l => max w (extent l)) 0 else extent s

/-- How many places a numeral has after its point, or after its exponent mark if it has no point;
none if it has neither. -/
def places? (s : String) : Option Nat :=
  let s := Text.visible s
  if Content.ofText s != .real then none
  else
    let cs := s.toList.reverse
    if cs.contains '.' then some (cs.takeWhile (· != '.')).length
    else if cs.any (fun c => c == 'e' || c == 'E') then
      some (cs.takeWhile (fun c => c != 'e' && c != 'E')).length
    else none

def alignPoints (cells : List String) : List String :=
  let after (s : String) : Nat := (places? s).elim 0 (· + 1)
  let most := (cells.map after).foldl max 0
  cells.map (fun s => s ++ Text.blanks (most - after s))

def padLine (numeric : Bool) (room : Nat) (s : String) : String :=
  let gap := Text.blanks (room - extent s)
  if numeric then gap ++ s else s ++ gap

def padCell (cut numeric : Bool) (room : Nat) (s : String) : List String :=
  (if cut then Text.splitLines s else [s]).map (padLine numeric room)

def padName (cut numeric : Bool) (room : Nat) (s : String) : List String :=
  (if cut then rows s else [s]).map (padLine numeric room)

structure Column where
  room : Nat
  name : List String
  cells : List (List String)

def prepare (cut : Bool) (count : Nat) (name : String) (values : List Value) : Except Error Column := do
  let values := values ++ List.replicate (count - values.length) .null
  let sort := Content.ofColumn values
  let texts ← values.mapM (cellText sort)
  let numeric := sort.isNumeric
  let texts := if numeric then alignPoints texts else texts.map Text.strip
  let room := (texts.map (width cut)).foldl max (width cut name + 2)
  return ⟨room, padName cut numeric room name, texts.map (padCell cut numeric room)⟩

def rule (fill : Char) (columns : List Column) : String :=
  "+" ++ String.intercalate "+" (columns.map (fun c => String.ofList (List.replicate (c.room + 2) fill))) ++ "+"

def drawRow (cells : List (Nat × List String)) : List String :=
  let height := (cells.map (·.2.length)).foldl max 0
  (List.range height).map (fun i =>
    "|" ++ String.intercalate "|" (cells.map (fun (room, cell) => " " ++ cell.getD i (Text.blanks room) ++ " ")) ++ "|")

def isCut (t : Table) : Bool :=
  let broken (s : String) : Bool := s.toList.any (fun c => c == '\n' || c == '\r')
  t.columns.any (fun (name, values) => broken name || values.any (fun v => broken v.toText))

def draw (t : Table) : Except Error String := do
  if t.columns.isEmpty then return ""
  let count := (t.columns.map (·.2.length)).foldl max 0
  let columns ← t.columns.mapM (fun (name, values) => prepare t.isCut count name values)
  let head := drawRow (columns.map (fun c => (c.room, c.name)))
  let body := (List.range count).flatMap (fun i =>
    drawRow (columns.map (fun c => (c.room, c.cells.getD i []))) ++ [rule '-' columns])
  let foot := if count = 0 then [rule '-' columns] else []
  return String.intercalate "\n" ([rule '-' columns] ++ head ++ [rule '=' columns] ++ body ++ foot)

def fieldNames (rows : List Fields) : List String := (rows.flatMap (fun r => r.map (·.1.toText))).eraseDups

/-- The table whose rows are objects: a column for every name. If the first row is no object, the
columns are numbered. -/
def ofRows (rows : List Value) : Except Error Table :=
  match rows with
  | [] => .ok ⟨[]⟩
  | .object _ :: _ => do
    let rows ← rows.mapM (fun r => match r with
      | .object fields => .ok fields
      | _ => .error .absentPart)
    return ⟨(fieldNames rows).map (fun n => (n, rows.map (fun r => (Value.find? r n).getD .null)))⟩
  | first :: _ => do
    let count ← first.length
    let rows ← rows.mapM Value.members
    return ⟨(List.range count).map (fun i => (toString i, rows.map (fun r => r.getD i .null)))⟩

end Table

end Supermartingale
