import Supermartingale.Error

/-!
# The words of YAML documents

A document is cut into words: marks that stand in the text, marks that follow from indentation, and
scalars.
-/

namespace Supermartingale.Yaml

/-! ## Cursors -/

def endMark : Char := Char.ofNat 0

def orderMark : Char := Char.ofNat 0xFEFF

def isBreak (c : Char) : Bool := c == '\n' || c == '\r' || c.toNat = 0x85 || c.toNat = 0x2028 || c.toNat = 0x2029

def endsLine (c : Char) : Bool := isBreak c || c == endMark

def isBlank (c : Char) : Bool := c == ' ' || c == '\t'

def endsWord (c : Char) : Bool := endsLine c || isBlank c

def isPrintable (c : Char) : Bool :=
  let n := c.toNat
  n = 0x09 || n = 0x0A || n = 0x0D || (0x20 ≤ n && n ≤ 0x7E) || n = 0x85 || (0xA0 ≤ n && n ≤ 0xFFFD) || 0x10000 ≤ n

structure Cursor where
  rest : List Char
  index : Nat := 0
  line : Nat := 0
  column : Nat := 0

namespace Cursor

def peek (c : Cursor) (ahead : Nat := 0) : Char := c.rest.getD ahead endMark

/-- The place behind the next character. A carriage return in front of a line feed ends no line of its
own. -/
def step (c : Cursor) : Cursor :=
  match c.rest with
  | [] => c
  | ch :: rest =>
    let endsHere := isBreak ch && !(ch == '\r' && rest.head? == some '\n')
    if endsHere then ⟨rest, c.index + 1, c.line + 1, 0⟩
    else if ch == orderMark then ⟨rest, c.index + 1, c.line, c.column⟩
    else ⟨rest, c.index + 1, c.line, c.column + 1⟩

def advance : Nat → Cursor → Cursor
  | 0, c => c
  | n + 1, c => advance n c.step

def run (p : Char → Bool) (c : Cursor) : List Char := c.rest.takeWhile p

def skip (p : Char → Bool) (c : Cursor) : Cursor := advance (c.run p).length c

def lineBreak (c : Cursor) : Option Char × Cursor :=
  let ch := c.peek
  if !isBreak ch then (none, c)
  else if ch.toNat = 0x2028 || ch.toNat = 0x2029 then (some ch, c.step)
  else if ch == '\r' && c.peek 1 == '\n' then (some '\n', advance 2 c)
  else (some '\n', c.step)

def atMark (mark : String) (c : Cursor) : Bool := c.rest.take 3 == mark.toList && endsWord (c.peek 3)

def atSeparator (c : Cursor) : Bool := c.atMark "---" || c.atMark "..."

def skipComment (c : Cursor) : Cursor :=
  let c := c.skip (· == ' ')
  if c.peek == '#' then c.skip (fun ch => !endsLine ch) else c

end Cursor

/-! ## Tokens -/

inductive Directive where
  | version (major minor : Nat)
  | handle (name start : String)
  | other
deriving DecidableEq, Repr

inductive Token where
  | directive (d : Directive)
  | documentStart
  | documentEnd
  | streamEnd
  | blockSequenceStart
  | blockMappingStart
  | blockEnd
  | flowSequenceStart
  | flowSequenceEnd
  | flowMappingStart
  | flowMappingEnd
  | blockEntry
  | flowEntry
  | key
  | value
  | alias (name : String)
  | anchor (name : String)
  | tag (handle : Option String) (suffix : String)
  | scalar (text : String) (plain : Bool)
deriving DecidableEq, Repr

namespace Token

def isNameChar (c : Char) : Bool := c.isAlphanum || c == '-' || c == '_'

def isAddressChar (c : Char) : Bool := c.isAlphanum || "-;/?:@&=+$,_.!~*'()[]%".toList.contains c

def readName (c : Cursor) : Except Error (String × Cursor) :=
  match c.run isNameChar with
  | [] => .error .unreadableYaml
  | name => .ok (String.ofList name, c.skip isNameChar)

def require (p : Char → Bool) (c : Cursor) : Except Error Unit :=
  if p c.peek then .ok () else .error .unreadableYaml

/-! ## Directives, anchors and tags -/

def endsEntry (c : Char) : Bool := endsLine c || c == ' '

def readHandle (c : Cursor) : Except Error (String × Cursor) := do
  require (· == '!') c
  if c.peek 1 == ' ' then return ("!", c.step)
  let after := c.step.skip isNameChar
  require (· == '!') after
  return ("!" ++ String.ofList (c.step.run isNameChar) ++ "!", after.step)

def hexNumber? (count : Nat) (cs : List Char) : Option Nat := do
  let digits ← (cs.take count).mapM Text.hexDigit?
  if digits.length = count then some (digits.foldl (fun n d => n * 16 + d) 0) else none

def addressBytes : List Char → Except Error (List UInt8)
  | '%' :: a :: b :: rest => do
    match hexNumber? 2 [a, b] with
    | some n => return n.toUInt8 :: (← addressBytes rest)
    | none => throw .unreadableYaml
  | '%' :: _ => .error .unreadableYaml
  | _ => .ok []

def addressText : Nat → List Char → Except Error (List Char)
  | 0, _ => .ok []
  | _ + 1, [] => .ok []
  | fuel + 1, '%' :: rest => do
    let bytes ← addressBytes ('%' :: rest)
    match String.fromUTF8? ⟨bytes.toArray⟩ with
    | some s => return s.toList ++ (← addressText fuel (('%' :: rest).drop (3 * bytes.length)))
    | none => throw .unreadableYaml
  | fuel + 1, c :: rest => do return c :: (← addressText fuel rest)

def readAddress (c : Cursor) : Except Error (String × Cursor) := do
  let cs := c.run isAddressChar
  if cs.isEmpty then throw .unreadableYaml
  let text ← addressText (cs.length + 1) cs
  return (String.ofList text, c.skip isAddressChar)

def readDigits (c : Cursor) : Except Error (Nat × Cursor) :=
  match c.run Char.isDigit with
  | [] => .error .unreadableYaml
  | digits => .ok (digitsValue digits, c.skip Char.isDigit)

def readDirectiveValue (name : String) (c : Cursor) : Except Error (Directive × Cursor) := do
  match name with
  | "YAML" =>
    let (major, c) ← readDigits (c.skip (· == ' '))
    require (· == '.') c
    let (minor, c) ← readDigits c.step
    require endsEntry c
    return (.version major minor, c)
  | "TAG" =>
    let (handle, c) ← readHandle (c.skip (· == ' '))
    require (· == ' ') c
    let (start, c) ← readAddress (c.skip (· == ' '))
    require endsEntry c
    return (.handle handle start, c)
  | _ => return (.other, c.skip (fun ch => !endsLine ch))

def readDirective (c : Cursor) : Except Error (Token × Cursor) := do
  let (name, c) ← readName c.step
  require endsEntry c
  let (d, c) ← readDirectiveValue name c
  let c := c.skipComment
  require endsLine c
  return (.directive d, c.lineBreak.2)

def readLabel (c : Cursor) : Except Error (String × Cursor) := do
  let (name, c) ← readName c.step
  require (fun ch => endsWord ch || "?:,]\x7d%@".toList.contains ch || ch.toNat = 96) c
  return (name, c)

def readTag (c : Cursor) : Except Error (Token × Cursor) := do
  let (token, c) ←
    if c.peek 1 == '<' then do
      let (suffix, c) ← readAddress (c.advance 2)
      require (· == '>') c
      pure (Token.tag none suffix, c.step)
    else if endsWord (c.peek 1) then pure (Token.tag none "!", c.step)
    else do
      let word := c.step.run (fun ch => !endsEntry ch)
      let (handle, c) ← if word.contains '!' then readHandle c else pure ("!", c.step)
      let (suffix, c) ← readAddress c
      pure (Token.tag (some handle) suffix, c)
  require endsEntry c
  return (token, c)

/-! ## Quoted scalars -/

def escapes : List (Char × Nat) := [
  ('0', 0x00), ('a', 0x07), ('b', 0x08), ('t', 0x09), ('\t', 0x09), ('n', 0x0A), ('v', 0x0B),
  ('f', 0x0C), ('r', 0x0D), ('e', 0x1B), (' ', 0x20), ('"', 0x22), ('\\', 0x5C), ('/', 0x2F),
  ('N', 0x85), ('_', 0xA0), ('L', 0x2028), ('P', 0x2029)]

def escapeLength? (c : Char) : Option Nat :=
  match c with
  | 'x' => some 2
  | 'u' => some 4
  | 'U' => some 8
  | _ => none

def quotedBreaks : Nat → Cursor → Except Error (List Char × Cursor)
  | 0, c => .ok ([], c)
  | fuel + 1, c => do
    if c.atSeparator then throw .unreadableYaml
    let c := c.skip isBlank
    match c.lineBreak with
    | (some b, c) =>
      let (bs, c) ← quotedBreaks fuel c
      return (b :: bs, c)
    | (none, c) => return ([], c)

def foldBreak (b : Char) (empty : List Char) : List Char :=
  if b != '\n' then b :: empty
  else if empty.isEmpty then [' ']
  else empty

def lowHalf? (c : Cursor) : Option Nat :=
  if c.peek == '\\' && c.peek 1 == 'u' then
    (hexNumber? 4 (c.rest.drop 2)).filter (fun n => 0xDC00 ≤ n && n < 0xE000)
  else none

/-- The character of an escape by number, and the place behind it. -/
def numberedChar (n : Nat) (c : Cursor) : Except Error (List Char × Cursor) :=
  if 0x110000 ≤ n then .error .noSuchCharacter
  else if 0xD800 ≤ n && n < 0xE000 then
    match lowHalf? c with
    | some low =>
      if n < 0xDC00 then
        .ok ([Char.ofNat (0x10000 + (n - 0xD800) * 0x400 + (low - 0xDC00))], c.advance 6)
      else .ok ([Char.ofNat 0xFFFD], c)
    | none => .ok ([Char.ofNat 0xFFFD], c)
  else .ok ([Char.ofNat n], c)

def readEscape (c : Cursor) : Except Error (List Char × Cursor) :=
  let ch := c.peek
  match escapes.find? (·.1 == ch), escapeLength? ch with
  | some (_, n), _ => .ok ([Char.ofNat n], c.step)
  | none, some count =>
    match hexNumber? count c.step.rest with
    | some n => numberedChar n (c.step.advance count)
    | none => .error .unreadableYaml
  | none, none =>
    if isBreak ch then
      let c := c.lineBreak.2
      quotedBreaks (c.rest.length + 1) c
    else .error .unreadableYaml

def readQuoted (quote : Char) : Nat → List Char → Cursor → Except Error (Token × Cursor)
  | 0, _, _ => .error .unreadableYaml
  | fuel + 1, done, c =>
    let ch := c.peek
    if ch == endMark then .error .unreadableYaml
    else if ch == quote then
      if quote == '\'' && c.peek 1 == '\'' then readQuoted quote fuel ('\'' :: done) (c.advance 2)
      else .ok (.scalar (String.ofList done.reverse) false, c.step)
    else if quote == '"' && ch == '\\' then do
      let (cs, c) ← readEscape c.step
      readQuoted quote fuel (cs.reverse ++ done) c
    else if endsWord ch then
      let blanks := c.run isBlank
      let c := c.skip isBlank
      if c.peek == endMark then .error .unreadableYaml
      else match c.lineBreak with
        | (some b, c) => do
          let (empty, c) ← quotedBreaks (c.rest.length + 1) c
          readQuoted quote fuel ((foldBreak b empty).reverse ++ done) c
        | (none, c) => readQuoted quote fuel (blanks.reverse ++ done) c
    else readQuoted quote fuel (ch :: done) c.step

/-! ## Block scalars -/

inductive Chomping where
  | strip
  | clip
  | keep
deriving DecidableEq, Repr

def chomping? (c : Char) : Option Chomping :=
  match c with
  | '+' => some .keep
  | '-' => some .strip
  | _ => none

def readIncrement (c : Cursor) : Except Error (Option Nat × Cursor) :=
  let ch := c.peek
  if !ch.isDigit then .ok (none, c)
  else if ch == '0' then .error .unreadableYaml
  else .ok (some (ch.toNat - '0'.toNat), c.step)

def readIndicators (c : Cursor) : Except Error ((Chomping × Option Nat) × Cursor) := do
  let (found, c) ← match chomping? c.peek with
    | some chomping => do
      let (increment, c) ← readIncrement c.step
      pure ((chomping, increment), c)
    | none => do
      let (increment, c) ← readIncrement c
      match increment, chomping? c.peek with
      | some _, some chomping => pure ((chomping, increment), c.step)
      | _, _ => pure ((.clip, increment), c)
  require endsEntry c
  return (found, c)

/-- The empty lines in front of a block scalar whose indentation is not known, and the largest column
of a blank among them. -/
def leadingBreaks : Nat → Nat → Cursor → List Char × Nat × Cursor
  | 0, deepest, c => ([], deepest, c)
  | fuel + 1, deepest, c =>
    if c.peek == ' ' then leadingBreaks fuel (max deepest (c.column + 1)) c.step
    else match c.lineBreak with
      | (some b, c) =>
        let (bs, deepest, c) := leadingBreaks fuel deepest c
        (b :: bs, deepest, c)
      | (none, c) => ([], deepest, c)

def skipTo (indent : Nat) (c : Cursor) : Cursor := c.advance (min (indent - c.column) (c.run (· == ' ')).length)

def innerBreaks (indent : Nat) : Nat → Cursor → List Char × Cursor
  | 0, c => ([], c)
  | fuel + 1, c =>
    let c := skipTo indent c
    match c.lineBreak with
    | (some b, c) =>
      let (bs, c) := innerBreaks indent fuel c
      (b :: bs, c)
    | (none, c) => ([], c)

def atLine (indent : Nat) (c : Cursor) : Bool := c.column = indent && c.peek != endMark

def blockLines (folded : Bool) (indent : Nat) :
    Nat → List Char → Cursor → List Char × List Char × List Char × Cursor
  | 0, breaks, c => ([], [], breaks, c)
  | fuel + 1, breaks, c =>
    if !atLine indent c then ([], [], breaks, c)
    else
      let flush := !isBlank c.peek
      let line := c.run (fun ch => !endsLine ch)
      let (last, c) := (c.skip (fun ch => !endsLine ch)).lineBreak
      let (next, c) := innerBreaks indent (c.rest.length + 1) c
      if atLine indent c then
        let joint :=
          if folded && last == some '\n' && flush && !isBlank c.peek then
            (if next.isEmpty then [' '] else [])
          else last.toList
        let (text, last, tail, c) := blockLines folded indent fuel next c
        (breaks ++ line ++ joint ++ text, last, tail, c)
      else (breaks ++ line, last.toList, next, c)

def readBlockScalar (folded : Bool) (indent : Int) (c : Cursor) : Except Error (Token × Cursor) := do
  let ((chomping, increment), c) ← readIndicators c.step
  let c := c.skipComment
  require endsLine c
  let c := c.lineBreak.2
  let least := max 1 (indent + 1).toNat
  let (breaks, column, c) := match increment with
    | some n =>
      let column := least + n - 1
      let (breaks, c) := innerBreaks column (c.rest.length + 1) c
      (breaks, column, c)
    | none =>
      let (breaks, deepest, c) := leadingBreaks (c.rest.length + 1) 0 c
      (breaks, max least deepest, c)
  let (text, last, tail, c) := blockLines folded column (c.rest.length + 1) breaks c
  let ending := match chomping with
    | .strip => []
    | .clip => last
    | .keep => last ++ tail
  return (.scalar (String.ofList (text ++ ending)) false, c)

/-! ## Plain scalars -/

def startsPlain (inFlow : Bool) (c : Cursor) : Bool :=
  let ch := c.peek
  let marks := "-?:,[]\x7b\x7d#&*!|>'\"%@".toList
  (!endsWord ch && !marks.contains ch && ch.toNat ≠ 96) ||
    (!endsWord (c.peek 1) && (ch == '-' || (!inFlow && (ch == '?' || ch == ':'))))

def plainRun (inFlow : Bool) : List Char → List Char
  | [] => []
  | ch :: rest =>
    let next := rest.headD endMark
    if endsWord ch || (ch == ':' && (endsWord next || (inFlow && ",[]\x7b\x7d".toList.contains next))) ||
        (inFlow && ",?[]\x7b\x7d".toList.contains ch) then []
    else ch :: plainRun inFlow rest

/-- The empty lines inside of a plain scalar; they end in front of a mark between documents, which
ends the scalar too. -/
def plainBreaks : Nat → Cursor → Option (List Char) × Cursor
  | 0, c => (some [], c)
  | fuel + 1, c =>
    if c.peek == ' ' then plainBreaks fuel c.step
    else match c.lineBreak with
      | (some b, c) =>
        if c.atSeparator then (none, c)
        else match plainBreaks fuel c with
          | (some bs, c) => (some (b :: bs), c)
          | (none, c) => (none, c)
      | (none, c) => (some [], c)

/-- What stands between two words of a plain scalar, whether a line ended there, and the place
behind it. -/
def plainGap (c : Cursor) : List Char × Bool × Cursor :=
  let blanks := c.run (· == ' ')
  let c := c.skip (· == ' ')
  match c.lineBreak with
  | (none, c) => (blanks, false, c)
  | (some b, c) =>
    if c.atSeparator then ([], true, c)
    else match plainBreaks (c.rest.length + 1) c with
      | (none, c) => ([], true, c)
      | (some empty, c) => (foldBreak b empty, true, c)

/-- Reads a plain scalar; `done` is what has been read, in reverse, and `gap` what stands in front
of the next word. -/
def readPlain (inFlow : Bool) (indent : Int) :
    Nat → Bool → List Char → List Char → Cursor → String × Bool × Cursor
  | 0, atStart, done, _, c => (String.ofList done.reverse, atStart, c)
  | fuel + 1, atStart, done, gap, c =>
    let word := if c.peek == '#' then [] else plainRun inFlow c.rest
    if word.isEmpty then (String.ofList done.reverse, atStart, c)
    else
      let done := word.reverse ++ gap.reverse ++ done
      let (gap, broken, c) := plainGap (c.advance word.length)
      if gap.isEmpty || c.peek == '#' || (!inFlow && c.column < indent + 1) then
        (String.ofList done.reverse, broken, c)
      else readPlain inFlow indent fuel broken done gap c

end Token

/-! ## Streams

Words are read from left to right and wait in a queue until they are taken. In a block the column of
a word opens and closes mappings and sequences. -/

/-- A word that may turn out to be a key: its number in the stream, whether it has to be a key, and
its place. -/
structure PossibleKey where
  number : Nat
  required : Bool
  index : Nat
  line : Nat
  column : Nat

structure Tokens where
  cursor : Cursor
  queue : List Token := []
  taken : Nat := 0
  indent : Int := -1
  indents : List Int := []
  /-- How many brackets are open; more may be closed than were opened. -/
  depth : Int := 0
  allowKey : Bool := true
  keys : List (Int × PossibleKey) := []
  ended : Bool := false

namespace Tokens

def ofText (cs : List Char) : Tokens := { cursor := ⟨cs, 0, 0, 0⟩ }

def inFlow (s : Tokens) : Bool := s.depth != 0

def push (s : Tokens) (t : Token) : Tokens := { s with queue := s.queue ++ [t] }

def insert (s : Tokens) (number : Nat) (t : Token) : Tokens :=
  let at_ := number - s.taken
  { s with queue := s.queue.take at_ ++ t :: s.queue.drop at_ }

def forward (s : Tokens) (n : Nat := 1) : Tokens := { s with cursor := s.cursor.advance n }

def dropStale (s : Tokens) : Except Error Tokens := do
  let isStale (k : PossibleKey) : Bool := k.line != s.cursor.line || s.cursor.index - k.index > 1024
  if s.keys.any (fun (_, k) => isStale k && k.required) then throw .unreadableYaml
  return { s with keys := s.keys.filter (fun (_, k) => !isStale k) }

def dropKey (s : Tokens) : Except Error Tokens := do
  if s.keys.any (fun (d, k) => d == s.depth && k.required) then throw .unreadableYaml
  return { s with keys := s.keys.filter (fun (d, _) => d != s.depth) }

/-- Notes that the next word may be a key. At the column of a block it has to be one. -/
def noteKey (s : Tokens) : Except Error Tokens := do
  if !s.allowKey then return s
  let c := s.cursor
  let required := !s.inFlow && s.indent == (c.column : Int)
  let s ← s.dropKey
  let key : PossibleKey := ⟨s.taken + s.queue.length, required, c.index, c.line, c.column⟩
  return { s with keys := s.keys ++ [(s.depth, key)] }

def unwind (s : Tokens) (column : Int) : Tokens :=
  if s.inFlow then s
  else go (s.indents.length + 1) s
where
  go : Nat → Tokens → Tokens
    | 0, s => s
    | fuel + 1, s =>
      if column < s.indent then
        go fuel { s with indent := s.indents.headD (-1), indents := s.indents.drop 1, queue := s.queue ++ [.blockEnd] }
      else s

def open? (s : Tokens) (column : Nat) : Option Tokens :=
  if s.indent < (column : Int) then
    some { s with indents := s.indent :: s.indents, indent := column }
  else none

/-- Opens a block at the cursor with a word that says so, unless one is open there. -/
def openBlock (s : Tokens) (start : Token) : Except Error Tokens :=
  if s.inFlow then .ok s
  else if !s.allowKey then .error .unreadableYaml
  else .ok ((s.open? s.cursor.column).elim s (·.push start))

/-! ## Words -/

def skipSpace : Nat → Tokens → Tokens
  | 0, s => s
  | fuel + 1, s =>
    match s.cursor.skipComment.lineBreak with
    | (some _, c) => skipSpace fuel { s with cursor := c, allowKey := s.allowKey || !s.inFlow }
    | (none, c) => { s with cursor := c }

def fetchEnd (s : Tokens) : Except Error Tokens := do
  let s ← (s.unwind (-1)).dropKey
  return { s.push .streamEnd with allowKey := false, keys := [], ended := true }

def fetchOuter (s : Tokens) (read : Cursor → Except Error (Token × Cursor)) : Except Error Tokens := do
  let s ← (s.unwind (-1)).dropKey
  let (t, c) ← read s.cursor
  return { s.push t with allowKey := false, cursor := c }

def fetchOpening (s : Tokens) (t : Token) : Except Error Tokens := do
  let s ← s.noteKey
  return { s.forward.push t with depth := s.depth + 1, allowKey := true }

def fetchClosing (s : Tokens) (t : Token) : Except Error Tokens := do
  let s ← s.dropKey
  return { s.forward.push t with depth := s.depth - 1, allowKey := false }

def fetchComma (s : Tokens) : Except Error Tokens := do
  let s ← s.dropKey
  return { s.forward.push .flowEntry with allowKey := true }

def fetchEntry (s : Tokens) : Except Error Tokens := do
  let s ← (← s.openBlock .blockSequenceStart).dropKey
  return { s.forward.push .blockEntry with allowKey := true }

def fetchKey (s : Tokens) : Except Error Tokens := do
  let s ← (← s.openBlock .blockMappingStart).dropKey
  return { s.forward.push .key with allowKey := !s.inFlow }

def fetchValue (s : Tokens) : Except Error Tokens := do
  match s.keys.find? (fun (d, _) => d == s.depth) with
  | some (_, key) =>
    let s := { s with keys := s.keys.filter (fun (d, _) => d != s.depth) }
    let s := s.insert key.number .key
    let s := if s.inFlow then s
      else (s.open? key.column).elim s (·.insert key.number .blockMappingStart)
    return { s.forward.push .value with allowKey := false }
  | none =>
    let s ← (← s.openBlock .blockMappingStart).dropKey
    return { s.forward.push .value with allowKey := !s.inFlow }

def fetchWord (s : Tokens) (read : Cursor → Except Error (Token × Cursor)) : Except Error Tokens := do
  let s ← s.noteKey
  let (t, c) ← read s.cursor
  return { s.push t with allowKey := false, cursor := c }

def fetchBlockScalar (s : Tokens) (folded : Bool) : Except Error Tokens := do
  let s ← s.dropKey
  let (t, c) ← Token.readBlockScalar folded s.indent s.cursor
  return { s.push t with allowKey := true, cursor := c }

def fetchPlain (s : Tokens) : Except Error Tokens := do
  let s ← s.noteKey
  let (text, broken, c) := Token.readPlain s.inFlow s.indent (s.cursor.rest.length + 1) false [] [] s.cursor
  return { s.push (.scalar text true) with allowKey := broken, cursor := c }

def readLabel (make : String → Token) (c : Cursor) : Except Error (Token × Cursor) := do
  let (name, c) ← Token.readLabel c
  return (make name, c)

def readQuoted (quote : Char) (c : Cursor) : Except Error (Token × Cursor) :=
  Token.readQuoted quote (c.rest.length + 1) [] c.step

def fetch (s : Tokens) : Except Error Tokens := do
  let c := s.cursor
  let start := if c.index = 0 && c.peek == orderMark then c.step else c
  let s ← (skipSpace (start.rest.length + 1) { s with cursor := start }).dropStale
  let s := s.unwind s.cursor.column
  let c := s.cursor
  let alone := endsWord (c.peek 1)
  let ch := c.peek
  if ch == endMark then s.fetchEnd
  else if ch == '%' && c.column = 0 then s.fetchOuter Token.readDirective
  else if c.column = 0 && c.atMark "---" then s.fetchOuter (fun c => .ok (.documentStart, c.advance 3))
  else if c.column = 0 && c.atMark "..." then s.fetchOuter (fun c => .ok (.documentEnd, c.advance 3))
  else if ch == '[' then s.fetchOpening .flowSequenceStart
  else if ch == '\x7b' then s.fetchOpening .flowMappingStart
  else if ch == ']' then s.fetchClosing .flowSequenceEnd
  else if ch == '\x7d' then s.fetchClosing .flowMappingEnd
  else if ch == ',' then s.fetchComma
  else if ch == '-' && alone then s.fetchEntry
  else if ch == '?' && (s.inFlow || alone) then s.fetchKey
  else if ch == ':' && (s.inFlow || alone) then s.fetchValue
  else if ch == '*' then s.fetchWord (readLabel .alias)
  else if ch == '&' then s.fetchWord (readLabel .anchor)
  else if ch == '!' then s.fetchWord Token.readTag
  else if ch == '|' && !s.inFlow then s.fetchBlockScalar false
  else if ch == '>' && !s.inFlow then s.fetchBlockScalar true
  else if ch == '\'' || ch == '"' then s.fetchWord (readQuoted ch)
  else if Token.startsPlain s.inFlow c then s.fetchPlain
  else throw .unreadableYaml

/-- Reads words until the first one can be taken: the queue is not empty, and the first word is no
possible key. -/
def settle : Nat → Tokens → Except Error Tokens
  | 0, s => .ok s
  | fuel + 1, s => do
    if s.ended then return s
    if s.queue.isEmpty then settle fuel (← s.fetch)
    else
      let s ← s.dropStale
      let first := (s.keys.map (fun (_, k) => k.number)).min?
      if first == some s.taken then settle fuel (← s.fetch) else return s

def next (s : Tokens) : Except Error (Token × Tokens) := do
  let s ← settle (s.cursor.rest.length + 3) s
  return (s.queue.headD .streamEnd, s)

def drop (s : Tokens) : Tokens := { s with queue := s.queue.drop 1, taken := s.taken + 1 }

end Tokens

end Supermartingale.Yaml
