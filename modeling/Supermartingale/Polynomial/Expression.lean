import Supermartingale.Decimal
import Supermartingale.Text.Class

/-!
# Arithmetic expressions

The text of a polynomial is an arithmetic expression over names and numerals with `+`, `-`, `*`,
`/`, `//`, `%`, powers written `**` or `^`, signs, parentheses and applications.
-/

namespace Supermartingale

inductive Token where
  | whole (n : Nat)
  | decimal (x : Numeral)
  | name (s : String)
  | mark (s : String)
  | quoted
deriving DecidableEq, Repr

namespace Token

def longMarks : List String := ["**", "//", ">>", "<<", "<=", ">=", "==", "!="]

def shortMarks : List Char :=
  ['+', '-', '*', '/', '%', '@', '&', '|', '^', '~', '<', '>', '(', ')', '[', ']', '\x7b', '\x7d',
    ',', ':', ';', '.', '=', '!']

def reserved : List String :=
  ["and", "as", "assert", "async", "await", "break", "class", "continue", "def", "del", "elif",
    "else", "except", "finally", "for", "from", "global", "if", "import", "in", "is", "lambda",
    "nonlocal", "not", "or", "pass", "raise", "return", "try", "while", "with", "yield"]

def literals : List String := ["True", "False", "None"]

def startsName (c : Char) : Bool := Text.isLetter c || c == '_'

def continuesName (c : Char) : Bool := Text.isAlphanumeric c || c == '_'

/-- Whether a run of digits spells a whole number: no zero in front of other digits. -/
def spellsWhole (digits : List Char) : Bool :=
  match digits with
  | '0' :: rest => rest.all (· == '0')
  | _ => true

/-- A text without the underscores that stand between the digits of the numeral it starts with;
`before` is the character in front of it. -/
def ungroup (before : Option Char) : List Char → List Char
  | [] => []
  | c :: rest =>
    if c == '_' then
      if before.any Char.isDigit && rest.head?.any Char.isDigit then ungroup before rest
      else c :: rest
    else if c.isDigit || c == '.' || c == 'e' || c == 'E' ||
        (before.any (fun b => b == 'e' || b == 'E') && (c == '+' || c == '-')) then
      c :: ungroup (some c) rest
    else c :: rest

def base? (c : Char) : Option Nat :=
  match c.toLower with
  | 'x' => some 16
  | 'o' => some 8
  | 'b' => some 2
  | _ => none

def digitIn? (base : Nat) (c : Char) : Option Nat :=
  let lower := c.toLower
  let value :=
    if c.isDigit then c.toNat - '0'.toNat
    else if 'a' ≤ lower && lower ≤ 'f' then lower.toNat - 'a'.toNat + 10
    else base
  if value < base then some value else none

/-- The whole number with some digits in a base behind those read already, and the rest. -/
def digitsIn (base : Nat) : Option Nat → List Char → Option (Nat × List Char)
  | read, c :: rest =>
    match digitIn? base c with
    | some d => digitsIn base (some (read.getD 0 * base + d)) rest
    | none =>
      if c == '_' && (rest.head?.bind (digitIn? base)).isSome then digitsIn base read rest
      else read.map (·, c :: rest)
  | read, [] => read.map (·, [])

def basedWhole? : List Char → Option (Nat × List Char)
  | '0' :: letter :: rest => (base? letter).bind (fun base => digitsIn base none rest)
  | _ => none

/-- The text behind a numeral. A letter that makes it imaginary becomes a product with the imaginary
unit. -/
def afterNumeral (cs : List Char) : List Char :=
  match cs with
  | c :: rest =>
    if (c == 'j' || c == 'J') && !rest.head?.any continuesName then '*' :: 'I' :: rest else cs
  | [] => []

/-- The word at the start of a text that is neither empty nor starts with a blank; `caret` is the
mark that `^` stands for. -/
def next (caret : String) (cs : List Char) : Option (Token × List Char) :=
  match cs with
  | [] => none
  | c :: rest =>
    if c.isDigit || (c == '.' && (rest.head?.map Char.isDigit).getD false) then
      let plain := ungroup none cs
      match basedWhole? cs, readNumeral plain with
      | some (n, after), _ => some (.whole n, after)
      | none, some (x, scaled, after) =>
        if x.pointed || scaled then some (.decimal x, afterNumeral after)
        else
          let digits := plain.takeWhile Char.isDigit
          if spellsWhole digits && digits.length ≤ digitLimit then
            some (.whole x.digits, afterNumeral after)
          else none
      | none, none => none
    else if startsName c then
      let s := String.ofList (cs.takeWhile continuesName)
      if reserved.contains s then none else some (.name s, cs.dropWhile continuesName)
    else if c == '\'' || c == '"' then
      match rest.dropWhile (· != c) with
      | _ :: after => some (.quoted, after)
      | [] => none
    else
      let two := String.ofList (cs.take 2)
      if longMarks.contains two then some (.mark two, cs.drop 2)
      else if c == '^' then some (.mark caret, rest)
      else if shortMarks.contains c then some (.mark (String.ofList [c]), rest)
      else none

/-- All words of a text, `fuel` bounding their number; none if some character starts no word. -/
def scanWithin (caret : String) : Nat → List Char → Option (List Token)
  | 0, _ => none
  | fuel + 1, cs =>
    match cs.dropWhile (fun c => c == ' ' || c == '\t' || c == '\x0c') with
    | [] => some []
    | c :: rest =>
      if c == '#' then some []
      else match next caret (c :: rest) with
        | some (t, after) => (scanWithin caret fuel after).map (t :: ·)
        | none => none

def scan (caret s : String) : Option (List Token) :=
  let cs := s.toList.filter (· != '\n')
  scanWithin caret (cs.length + 1) cs

end Token

inductive Expression where
  | whole (n : Nat)
  | decimal (x : Numeral)
  | name (s : String)
  | neg (e : Expression)
  | pos (e : Expression)
  | add (l r : Expression)
  | sub (l r : Expression)
  | mul (l r : Expression)
  | div (l r : Expression)
  | quotient (l r : Expression)
  | remainder (l r : Expression)
  | pow (l r : Expression)
  | xor (l r : Expression)
  /-- The product sign `@`, which no polynomial has. -/
  | matrixMul (l r : Expression)
  /-- An application `f(x)`; several arguments are a sequence. -/
  | apply (f x : Expression)
  | sequence (l r : Expression)
  | relation (l r : Expression)
  | equality (l r : Expression)
  | member (e : Expression)
  | entry (e : Expression)
  | foreign
deriving Repr, DecidableEq

namespace Expression

abbrev Reading := Option (Expression × List Token)

def looseNode? (mark : String) : Option (Expression → Expression → Expression) :=
  if mark == "^" then some .xor
  else if ["<", ">", "<=", ">="].contains mark then some .relation
  else if ["==", "!="].contains mark then some .equality
  else if ["|", "&", "<<", ">>"].contains mark then some (fun _ _ => .foreign)
  else none

mutual

def readLoose (fuel : Nat) (ts : List Token) : Reading :=
  match fuel with
  | 0 => none
  | fuel + 1 =>
    match readSum fuel ts with
    | some (e, .mark m :: rest) =>
      match looseNode? m with
      | some node =>
        match readLoose fuel rest with
        | some (r, rest) => some (node e r, rest)
        | none => none
      | none => some (e, .mark m :: rest)
    | r => r

def readSum (fuel : Nat) (ts : List Token) : Reading :=
  match fuel with
  | 0 => none
  | fuel + 1 =>
    match readTerm fuel ts with
    | some (e, rest) => readSumTail fuel e rest
    | none => none

def readSumTail (fuel : Nat) (e : Expression) (ts : List Token) : Reading :=
  match fuel with
  | 0 => none
  | fuel + 1 =>
    match ts with
    | .mark "+" :: rest =>
      match readTerm fuel rest with
      | some (r, rest) => readSumTail fuel (.add e r) rest
      | none => none
    | .mark "-" :: rest =>
      match readTerm fuel rest with
      | some (r, rest) => readSumTail fuel (.sub e r) rest
      | none => none
    | _ => some (e, ts)

def readTerm (fuel : Nat) (ts : List Token) : Reading :=
  match fuel with
  | 0 => none
  | fuel + 1 =>
    match readFactor fuel ts with
    | some (e, rest) => readTermTail fuel e rest
    | none => none

def readTermTail (fuel : Nat) (e : Expression) (ts : List Token) : Reading :=
  match fuel with
  | 0 => none
  | fuel + 1 =>
    let join (node : Expression → Expression → Expression) (rest : List Token) : Reading :=
      match readFactor fuel rest with
      | some (r, rest) => readTermTail fuel (node e r) rest
      | none => none
    match ts with
    | .mark "*" :: rest => join .mul rest
    | .mark "/" :: rest => join .div rest
    | .mark "//" :: rest => join .quotient rest
    | .mark "%" :: rest => join .remainder rest
    | .mark "@" :: rest => join .matrixMul rest
    | _ => some (e, ts)

/-- A factor: signs in front of a power. A sign binds less than the power to its right. -/
def readFactor (fuel : Nat) (ts : List Token) : Reading :=
  match fuel with
  | 0 => none
  | fuel + 1 =>
    match ts with
    | .mark "-" :: rest => (readFactor fuel rest).map (fun (e, r) => (.neg e, r))
    | .mark "+" :: rest => (readFactor fuel rest).map (fun (e, r) => (.pos e, r))
    | .mark "~" :: rest => (readFactor fuel rest).map (fun (_, r) => (.foreign, r))
    | _ => readPower fuel ts

def readPower (fuel : Nat) (ts : List Token) : Reading :=
  match fuel with
  | 0 => none
  | fuel + 1 =>
    match readAtom fuel ts with
    | some (e, rest) =>
      match readTrailers fuel e rest with
      | some (e, .mark "**" :: rest) =>
        match readFactor fuel rest with
        | some (r, rest) => some (.pow e r, rest)
        | none => none
      | r => r
    | none => none

def readTrailers (fuel : Nat) (e : Expression) (ts : List Token) : Reading :=
  match fuel with
  | 0 => none
  | fuel + 1 =>
    match ts with
    | .mark "(" :: rest =>
      match readItems fuel ")" rest with
      | some (x, _, rest) => readTrailers fuel (.apply e x) rest
      | none => none
    | .mark "[" :: rest =>
      match readItems fuel "]" rest with
      | some (_, _, rest) => readTrailers fuel (.entry e) rest
      | none => none
    | .mark "." :: .name _ :: rest => readTrailers fuel (.member e) rest
    | .mark "!" :: .mark "!" :: .mark "!" :: _ => none
    | .mark "!" :: .mark "!" :: rest => readTrailers fuel (.apply (.name "factorial2") e) rest
    | .mark "!" :: rest => readTrailers fuel (.apply (.name "factorial") e) rest
    | _ => some (e, ts)

/-- A numeral, a name, or something in brackets. -/
def readAtom (fuel : Nat) (ts : List Token) : Reading :=
  match fuel with
  | 0 => none
  | fuel + 1 =>
    match ts with
    | .whole n :: rest => some (.whole n, rest)
    | .decimal x :: rest => some (.decimal x, rest)
    | .name s :: rest => some (.name s, rest)
    | .quoted :: rest => some (.foreign, rest)
    | .mark "(" :: rest => (readItems fuel ")" rest).map (fun (e, _, rest) => (e, rest))
    | .mark "[" :: rest =>
      match readItems fuel "]" rest with
      | some (_, _, rest) => some (.foreign, rest)
      | none => none
    | .mark "\x7b" :: rest =>
      match readItems fuel "\x7d" rest with
      | some (_, _, rest) => some (.foreign, rest)
      | none => none
    | _ => none

/-- Expressions separated by commas up to the closing mark. -/
def readItems (fuel : Nat) (close : String) (ts : List Token) : Option (Expression × Bool × List Token) :=
  match fuel with
  | 0 => none
  | fuel + 1 =>
    match ts with
    | .mark m :: rest =>
      if m == close then some (.foreign, false, rest) else readItem fuel close ts
    | _ => readItem fuel close ts

def readItem (fuel : Nat) (close : String) (ts : List Token) : Option (Expression × Bool × List Token) :=
  match fuel with
  | 0 => none
  | fuel + 1 =>
    match readLoose fuel ts with
    | some (e, .mark m :: rest) =>
      if m == close then some (e, true, rest)
      else if m == "," then
        match readItems fuel close rest with
        | some (r, _, rest) => some (.sequence e r, false, rest)
        | none => none
      else none
    | _ => none

end

def readAll (fuel : Nat) (ts : List Token) : Option Expression :=
  match fuel with
  | 0 => none
  | fuel + 1 =>
    match readLoose (16 * ts.length + 16) ts with
    | some (e, []) => some e
    | some (e, [.mark ","]) => some (.sequence e .foreign)
    | some (e, .mark "," :: rest) => (readAll fuel rest).map (.sequence e)
    | _ => none

/-- Reads an arithmetic expression; none if the text is not one. The text `^` is a second spelling
of `**`. -/
def read (s : String) : Option Expression :=
  match Token.scan "**" s with
  | some ts => readAll (ts.length + 1) ts
  | none => none

end Expression

end Supermartingale
