import Supermartingale.Value

/-!
# JSON documents

A reader and a writer. The reader takes the usual grammar and the names of the numbers that are not
finite; of fields with the same name the last counts, at the place of the first.
-/

namespace Supermartingale.Json

inductive Fault where
  | malformed (what : String) (rest : List Char)
  | tooLong

def isSpace (c : Char) : Bool := c == ' ' || c == '\t' || c == '\n' || c == '\r'

def skipSpaces (cs : List Char) : List Char := cs.dropWhile isSpace

/-! ## Texts -/

def hexUnit? : List Char → Option (Nat × List Char)
  | a :: b :: c :: d :: rest => do
    let a ← Text.hexDigit? a
    let b ← Text.hexDigit? b
    let c ← Text.hexDigit? c
    let d ← Text.hexDigit? d
    return (((a * 16 + b) * 16 + c) * 16 + d, rest)
  | _ => none

/-- The character of a code unit and, if it is the first half of a pair, of the unit behind it. -/
def unitChar (unit : Nat) (rest : List Char) : Char × List Char :=
  if 0xD800 ≤ unit && unit < 0xDC00 then
    match rest with
    | '\\' :: 'u' :: more =>
      match hexUnit? more with
      | some (low, behind) =>
        if 0xDC00 ≤ low && low < 0xE000 then
          (Char.ofNat (0x10000 + (unit - 0xD800) * 0x400 + (low - 0xDC00)), behind)
        else (Char.ofNat 0xFFFD, rest)
      | none => (Char.ofNat 0xFFFD, rest)
    | _ => (Char.ofNat 0xFFFD, rest)
  else if 0xDC00 ≤ unit && unit < 0xE000 then (Char.ofNat 0xFFFD, rest)
  else (Char.ofNat unit, rest)

def escaped? (c : Char) : Option Char :=
  match c with
  | '"' => some '"'
  | '\\' => some '\\'
  | '/' => some '/'
  | 'b' => some '\x08'
  | 'f' => some '\x0c'
  | 'n' => some '\n'
  | 'r' => some '\r'
  | 't' => some '\t'
  | _ => none

/-- Reads a text up to its closing quote; `start` is the document from the opening quote on and
`done` what has been read, in reverse. -/
def readText (start : List Char) :
    Nat → List Char → List Char → Except Fault (String × List Char)
  | 0, _, _ => .error (.malformed "Unterminated string starting at" start)
  | fuel + 1, done, cs =>
    match cs with
    | [] => .error (.malformed "Unterminated string starting at" start)
    | '"' :: rest => .ok (String.ofList done.reverse, rest)
    | ['\\'] => .error (.malformed "Unterminated string starting at" start)
    | '\\' :: 'u' :: rest =>
      match hexUnit? rest with
      | some (unit, rest) =>
        let (c, rest) := unitChar unit rest
        readText start fuel (c :: done) rest
      | none => .error (.malformed "Invalid \\uXXXX escape" rest)
    | '\\' :: c :: rest =>
      match escaped? c with
      | some c => readText start fuel (c :: done) rest
      | none => .error (.malformed "Invalid \\escape" cs)
    | c :: rest =>
      if c.toNat < 32 then .error (.malformed "Invalid control character at" cs)
      else readText start fuel (c :: done) rest

def readNumber? (cs : List Char) : Option (Number × List Char) :=
  let (negative, digits) := match cs with
    | '-' :: rest => (true, rest)
    | rest => (false, rest)
  let (whole, rest) := match digits with
    | '0' :: rest => (['0'], rest)
    | _ => (digits.takeWhile Char.isDigit, digits.dropWhile Char.isDigit)
  if whole.isEmpty then none
  else
    let (fraction, rest) := match rest with
      | '.' :: more =>
        let fraction := more.takeWhile Char.isDigit
        if fraction.isEmpty then ([], rest) else (fraction, more.dropWhile Char.isDigit)
      | _ => ([], rest)
    let (power, rest) := match readExponent rest with
      | some (power, more) => (some power, more)
      | none => (none, rest)
    if fraction.isEmpty && power.isNone then
      let n : Int := digitsValue whole
      some (.int (if negative then -n else n), rest)
    else
      let x := Number.nearestDouble (Numeral.make whole fraction (power.getD 0) true).value
      some (.double (if negative then -x else x), rest)

def names : List (String × Value) := [
  ("null", .null), ("true", .bool true), ("false", .bool false),
  ("NaN", .number (.double (0.0 / 0.0))), ("Infinity", .number (.double (1.0 / 0.0))),
  ("-Infinity", .number (.double (-1.0 / 0.0)))]

def readName? (cs : List Char) : Option (Value × List Char) :=
  names.findSome? (fun (name, v) =>
    let n := name.toList
    if n.isPrefixOf cs then some (v, cs.drop n.length) else none)

/-! ## Documents -/

mutual

def readValue : Nat → List Char → Except Fault (Value × List Char)
  | 0, cs => .error (.malformed "Expecting value" cs)
  | fuel + 1, cs =>
    match cs with
    | '"' :: rest => do
      let (s, rest) ← readText cs (rest.length + 1) [] rest
      return (.text s, rest)
    | '{' :: rest =>
      match skipSpaces rest with
      | '}' :: rest => .ok (.object [], rest)
      | rest => readFields fuel [] rest
    | '[' :: rest =>
      match skipSpaces rest with
      | ']' :: rest => .ok (.list [], rest)
      | rest => readMembers fuel [] rest
    | _ =>
      match readName? cs with
      | some reading => .ok reading
      | none => match readNumber? cs with
        | some (n, rest) => if n.isWritable then .ok (.number n, rest) else .error .tooLong
        | none => .error (.malformed "Expecting value" cs)

def readFields :
    Nat → Fields → List Char → Except Fault (Value × List Char)
  | 0, _, cs => .error (.malformed "Expecting value" cs)
  | fuel + 1, done, cs =>
    match cs with
    | '"' :: rest => do
      let (name, rest) ← readText cs (rest.length + 1) [] rest
      match skipSpaces rest with
      | ':' :: rest =>
        let (v, rest) ← readValue fuel (skipSpaces rest)
        let done := Value.setField done name v
        match skipSpaces rest with
        | '}' :: rest => return (.object done, rest)
        | ',' :: rest => readFields fuel done (skipSpaces rest)
        | rest => throw (.malformed "Expecting ',' delimiter" rest)
      | rest => throw (.malformed "Expecting ':' delimiter" rest)
    | _ => .error (.malformed "Expecting property name enclosed in double quotes" cs)

def readMembers : Nat → List Value → List Char → Except Fault (Value × List Char)
  | 0, _, cs => .error (.malformed "Expecting value" cs)
  | fuel + 1, done, cs => do
    let (v, rest) ← readValue fuel cs
    let done := v :: done
    match skipSpaces rest with
    | ']' :: rest => return (.list done.reverse, rest)
    | ',' :: rest => readMembers fuel done (skipSpaces rest)
    | rest => throw (.malformed "Expecting ',' delimiter" rest)

end

def refuse (document : List Char) (fault : Fault) : Error :=
  match fault with
  | .tooLong => .numeralTooLong
  | .malformed what rest =>
    let before := document.take (document.length - rest.length)
    let line := (before.filter (· == '\n')).length + 1
    let column := (before.reverse.takeWhile (· != '\n')).length + 1
    .malformedJson what line column before.length

def readChars (cs : List Char) : Except Error Value :=
  match readValue (2 * cs.length + 2) (skipSpaces cs) with
  | .error fault => .error (refuse cs fault)
  | .ok (v, rest) =>
    match skipSpaces rest with
    | [] => .ok v
    | rest => .error (refuse cs (.malformed "Extra data" rest))

def read (s : String) : Except Error Value := readChars s.toList

/-! ## Writing -/

def unitText (n : Nat) : String := "\\u" ++ Text.hex 4 n

def charText (c : Char) : String :=
  match c with
  | '"' => "\\\""
  | '\\' => "\\\\"
  | '\n' => "\\n"
  | '\r' => "\\r"
  | '\t' => "\\t"
  | '\x08' => "\\b"
  | '\x0c' => "\\f"
  | c =>
    let n := c.toNat
    if 32 ≤ n && n < 127 then String.ofList [c]
    else if n < 0x10000 then unitText n
    else unitText (0xD800 + (n - 0x10000) / 0x400) ++ unitText (0xDC00 + (n - 0x10000) % 0x400)

def textText (s : String) : String := "\"" ++ String.join (s.toList.map charText) ++ "\""

def numberText : Number → String
  | .int n => toString n
  | .double x =>
    if x.isNaN then "NaN"
    else if x.isInf then (if x > 0 then "Infinity" else "-Infinity")
    else Double.text x

def keyText : Key → String
  | .null => "null"
  | .bool b => if b then "true" else "false"
  | .number n => numberText n
  | k => k.toText

/-- How a document is laid out: on one line, or with every member on a line of its own, indented by
so many blanks for every level. -/
inductive Layout where
  | line
  | block (indent level : Nat)

namespace Layout

def inner : Layout → Layout
  | line => line
  | block indent level => block indent (level + 1)

def lead : Layout → String
  | line => ""
  | block indent level => "\n" ++ String.ofList (List.replicate (indent * level) ' ')

def between (l : Layout) : String :=
  match l with
  | line => ", "
  | l => "," ++ l.lead

end Layout

def enclose (l : Layout) (opening closing : String) (members : List String) : String :=
  if members.isEmpty then opening ++ closing
  else opening ++ l.inner.lead ++ String.intercalate l.inner.between members ++ l.lead ++ closing

mutual

def write (l : Layout) : Value → String
  | .null => "null"
  | .bool b => if b then "true" else "false"
  | .number n => numberText n
  | .text s => textText s
  | .list xs => enclose l "[" "]" (writeMembers l.inner xs)
  | .object fields => enclose l "\x7b" "\x7d" (writeFields l.inner fields)
  | .foreign x => textText x.shown

def writeMembers (l : Layout) : List Value → List String
  | [] => []
  | x :: xs => write l x :: writeMembers l xs

def writeFields (l : Layout) : List (Key × Value) → List String
  | [] => []
  | (k, v) :: fields => (textText (keyText k) ++ ": " ++ write l v) :: writeFields l fields

end

def writeLine (v : Value) : String := write .line v

def writeBlock (v : Value) : String := write (.block 4 0) v

end Supermartingale.Json
