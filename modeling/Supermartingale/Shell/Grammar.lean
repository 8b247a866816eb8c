import Supermartingale.Shell.Syntax

/-!
# Reading scripts

Commands are read from the text of a script one after the other, so that those in front of a mistake
can run. A command that reads a text from the script finds it on the lines behind its own, up to a
line that is its end mark.
-/

namespace Supermartingale.Shell

/-- A symbol of a script. A word is given with its text if it has neither quotes nor references. -/
inductive Symbol where
  | ending
  | newline
  | semicolon
  | background
  | both
  | either
  | pipe
  | opening
  | closing
  | endCase
  | word (parts : Word)
  | redirect (r : Redirect)

/-- What is left of a script, and the number of the line. -/
structure Source where
  rest : List Char
  line : Nat := 1
  cutLines : Nat := 0
  back : Option Symbol := none

structure Refusal where
  line : Nat
  message : String

abbrev Parse (α : Type) := StateT Source (Except Refusal) α

def refuse {α : Type} (message : String) : Parse α := do
  throw ⟨(← get).line, message⟩

/-! ## Characters -/

def joinLines : Nat → Source → Source
  | 0, s => s
  | fuel + 1, s =>
    match s.rest with
    | '\\' :: '\n' :: rest => joinLines fuel { s with rest, line := s.line + 1 }
    | _ => s

def peekChar : Parse (Option Char) := do
  modify (fun s => joinLines s.rest.length s)
  return (← get).rest.head?

def looksAt (start : String) : Parse Bool := do
  return start.toList.isPrefixOf (← get).rest

def eat : Parse Unit := modify (fun s =>
  match s.rest with
  | '\n' :: rest => { s with rest, line := s.line + 1 + s.cutLines, cutLines := 0 }
  | _ :: rest => { s with rest }
  | [] => s)

def eatMany (n : Nat) : Parse Unit := (List.range n).forM (fun _ => eat)

def takeChars (p : Char → Bool) : Parse (List Char) := do
  let cs := (← get).rest.takeWhile p
  eatMany cs.length
  return cs

def isBlankChar (c : Char) : Bool := c == ' ' || c == '\t'

def endsWord (c : Char) : Bool := isBlankChar c || "\n;&|<>()".toList.contains c

def skipBlanks : Nat → Parse Unit
  | 0 => return ()
  | fuel + 1 => do
    match ← peekChar with
    | some c =>
      if isBlankChar c then
        eat
        skipBlanks fuel
      else if c == '#' then
        let _ ← takeChars (· != '\n')
      else return ()
    | none => return ()

def endMark : Nat → List Char → Bool → Parse (String × Bool)
  | 0, done, quoted => return (String.ofList done.reverse, quoted)
  | fuel + 1, done, quoted => do
    match ← peekChar with
    | none => return (String.ofList done.reverse, quoted)
    | some c =>
      if endsWord c then return (String.ofList done.reverse, quoted)
      else if c == '\'' || c == '"' then
        eat
        let inside ← takeChars (· != c)
        eat
        endMark fuel (inside.reverse ++ done) true
      else if c == '\\' then
        eat
        let cs ← takeChars (fun _ => false)
        let next := (← get).rest.head?.toList
        eat
        endMark fuel (next ++ cs ++ done) true
      else
        eat
        endMark fuel (c :: done) quoted

def cutText (mark : String) (stripTabs : Bool) : Parse (List Char) := do
  let s ← get
  let here := s.rest.takeWhile (· != '\n')
  let behind := (s.rest.dropWhile (· != '\n')).drop 1
  let strip (l : String) : String :=
    if stripTabs then String.ofList (l.toList.dropWhile (· == '\t')) else l
  let lines := (Text.splitOn "\n" (String.ofList behind)).map strip
  let body := lines.takeWhile (· != mark)
  let after := (Text.splitOn "\n" (String.ofList behind)).drop (body.length + 1)
  let isWhole := body.length = lines.length
  let text := if isWhole then String.intercalate "\n" body else String.join (body.map (· ++ "\n"))
  let left := if isWhole then [] else (String.intercalate "\n" after).toList
  set { s with
    rest := here ++ (if s.rest.length = here.length then [] else '\n' :: left)
    cutLines := s.cutLines + body.length + 1 }
  return text.toList

/-! ## Words -/

inductive Place where
  | plain
  | quoted
  | braces
  | quotedBraces
  | following
  | formula (depth : Nat)
deriving DecidableEq, Repr

namespace Place

def inQuotes : Place → Bool
  | plain => false
  | braces => false
  | _ => true

def keeps (p : Place) (c : Char) : Bool :=
  match p with
  | plain => true
  | braces => true
  | quoted => "$\x60\"\\".toList.contains c
  | quotedBraces => "$\x60\"\\\x7d".toList.contains c
  | following => "$\x60\\".toList.contains c
  | formula _ => "$\x60\"\\".toList.contains c

def part (p : Place) (c : Char) : Part := if p.inQuotes then .kept [c] else .plain [c]

end Place

def joinPart (part : Part) (parts : Word) : Word :=
  match part, parts with
  | .plain cs, .plain ds :: rest => .plain (cs ++ ds) :: rest
  | .kept cs, .kept ds :: rest => .kept (cs ++ ds) :: rest
  | part, parts => part :: parts

/-- The text between backquotes, with the backslashes in front of some characters dropped. -/
def backquoted (inQuotes : Bool) : Nat → List Char → Parse (List Char)
  | 0, done => return done.reverse
  | fuel + 1, done => do
    match (← get).rest with
    | [] => refuse "Syntax error: EOF in backquote substitution"
    | '\x60' :: _ =>
      eat
      return done.reverse
    | '\\' :: c :: _ =>
      eatMany 2
      if c == '\x60' || c == '$' || c == '\\' || (inQuotes && c == '"') then
        backquoted inQuotes fuel (c :: done)
      else if c == '\n' then backquoted inQuotes fuel done
      else backquoted inQuotes fuel (c :: '\\' :: done)
    | c :: _ =>
      eat
      backquoted inQuotes fuel (c :: done)

def parameterName : Parse (Option String) := do
  match ← peekChar with
  | none => return none
  | some c =>
    if startsName c then return some (String.ofList (← takeChars continuesName))
    else if c.isDigit then return some (String.ofList (← takeChars Char.isDigit))
    else if isSpecial c then
      eat
      return some (String.ofList [c])
    else return none

def changeMark : Parse (Option (Change × Bool)) := do
  let orEmpty ← looksAt ":"
  if orEmpty then eat
  let simple (c : Change) : Parse (Option (Change × Bool)) := do
    eat
    return some (c, orEmpty)
  let doubled (mark : String) (make : Bool → Change) : Parse (Option (Change × Bool)) := do
    eat
    if ← looksAt mark then
      eat
      return some (make true, false)
    return some (make false, false)
  match ← peekChar with
  | some '-' => simple .otherwise
  | some '=' => simple .assign
  | some '?' => simple .demand
  | some '+' => simple .instead
  | some '%' => if orEmpty then return none else doubled "%" .dropEnd
  | some '#' => if orEmpty then return none else doubled "#" .dropStart
  | _ => return none

def Symbol.name (isKeyword : Bool) : Symbol → String
  | .ending => "end of file"
  | .newline => "newline"
  | .semicolon => "\";\""
  | .background => "\"&\""
  | .both => "\"&&\""
  | .either => "\"||\""
  | .pipe => "\"|\""
  | .opening => "\"(\""
  | .closing => "\")\""
  | .endCase => "\";;\""
  | .redirect _ => "redirection"
  | .word w =>
    match bareText? w with
    | some s => if isKeyword && reserved.contains s then "\"" ++ s ++ "\"" else "word"
    | none => "word"

def Symbol.keyword? : Symbol → Option String
  | .word w => (bareText? w).filter reserved.contains
  | _ => none

def unexpected {α : Type} (s : Symbol) (expected : String := "") (isKeyword : Bool := true) :
    Parse α :=
  refuse ("Syntax error: " ++ s.name isKeyword ++ " unexpected" ++
    (if expected.isEmpty then "" else " (expecting " ++ expected ++ ")"))

def putBack (s : Symbol) : Parse Unit := modify (fun src => { src with back := some s })

def endsList (s : Symbol) : Bool :=
  match s with
  | .ending => true
  | .closing => true
  | .endCase => true
  | s => match s.keyword? with
    | some k => ["do", "done", "elif", "else", "esac", "fi", "then", "\x7d"].contains k
    | none => false

def ofList : List Command → Command
  | [c] => c
  | cs => .sequence cs

def redirecting (body : Command) (rs : List Redirect) : Command :=
  if rs.isEmpty then body else .redirected body rs

mutual

def readParts : Nat → Place → Parse Word
  | 0, _ => return []
  | fuel + 1, place => do
    let go (p : Part) : Parse Word := do return joinPart p (← readParts fuel place)
    match ← peekChar with
    | none =>
      match place with
      | .quoted => refuse "Syntax error: Unterminated quoted string"
      | .braces => refuse "Syntax error: Missing '\x7d'"
      | .quotedBraces => refuse "Syntax error: Missing '\x7d'"
      | .formula _ => refuse "Syntax error: Missing '))'"
      | _ => return []
    | some c =>
      if place == .plain && endsWord c then return []
      else if place == .quoted && c == '"' then return []
      else if (place == .braces || place == .quotedBraces) && c == '\x7d' then return []
      else if c == '$' then
        eat
        let part ← readReference fuel place
        go part
      else if c == '\x60' then
        eat
        let text ← backquoted place.inQuotes ((← get).rest.length + 1) []
        let line := (← get).line
        match (readAll fuel).run { rest := text, line } with
        | .ok (body, _) => go (.output body place.inQuotes)
        | .error e => throw e
      else if c == '\\' then
        eat
        match (← get).rest with
        | [] => return [.kept ['\\']]
        | d :: _ =>
          if place.keeps d then
            eat
            go (.kept [d])
          else go (.kept ['\\'])
      else if c == '\'' && !place.inQuotes then
        eat
        let inside ← takeChars (· != '\'')
        if (← get).rest.isEmpty then refuse "Syntax error: Unterminated quoted string"
        eat
        go (.kept inside)
      else if c == '"' && !(place == .following) then
        match place with
        | .formula _ =>
          eat
          readParts fuel place
        | .quotedBraces =>
          eat
          readParts fuel place
        | _ =>
          eat
          let inside ← readParts fuel .quoted
          eat
          let inside := if inside.isEmpty then [.kept []] else inside
          return inside.foldr joinPart (← readParts fuel place)
      else match place with
        | .formula depth =>
          if depth = 0 && (← looksAt "))") then return []
          else
            eat
            let next := if c == '(' then depth + 1 else if c == ')' then depth - 1 else depth
            return joinPart (.kept [c]) (← readParts fuel (.formula next))
        | _ =>
          eat
          go (place.part c)

def readReference : Nat → Place → Parse Part
  | 0, _ => return .unknown
  | fuel + 1, place => do
    let inQuotes := place.inQuotes
    match ← peekChar with
    | none => return place.part '$'
    | some '(' =>
      eat
      if (← peekChar) == some '(' then
        eat
        let word ← readParts fuel (.formula 0)
        eat
        if (← peekChar) != some ')' then refuse "Syntax error: Missing '))'"
        eat
        return .arithmetic word inQuotes
      else
        let body ← readList fuel true
        let s ← readSymbol fuel
        match s with
        | .closing => return .output body inQuotes
        | s => unexpected s "\")\""
    | some '\x7b' =>
      eat
      let isLength := (← looksAt "#") && !(← looksAt "#\x7d")
      if isLength then eat
      match ← parameterName with
      | none => skipBraces fuel
      | some name =>
        if ← looksAt "\x7d" then
          eat
          return if isLength then .length name inQuotes else .parameter name inQuotes
        else if isLength then skipBraces fuel
        else match ← changeMark with
          | none => skipBraces fuel
          | some (change, orEmpty) =>
            let cutsPattern := match change with
              | .dropEnd _ => true
              | .dropStart _ => true
              | _ => false
            let word ← readParts fuel (if inQuotes && !cutsPattern then .quotedBraces else .braces)
            eat
            return .changed name change orEmpty word inQuotes
    | some c =>
      if startsName c then return .parameter (String.ofList (← takeChars continuesName)) inQuotes
      else if isSpecial c then
        eat
        return .parameter (String.ofList [c]) inQuotes
      else return place.part '$'

/-- Drops a reference that makes no sense, up to its closing brace. A line end right at its start is
not counted. -/
def skipBraces : Nat → Parse Part
  | 0 => return .unknown
  | fuel + 1 => do
    modify (fun s => match s.rest with
      | '\n' :: rest => { s with rest }
      | _ => s)
    let _ ← readParts fuel .braces
    eat
    return .unknown

def readRedirect : Nat → Option Nat → Parse Symbol
  | 0, _ => return .ending
  | fuel + 1, channel => do
    let target : Parse Word := do
      let s ← readRaw fuel
      match s with
      | .word w => return w
      | s => unexpected s "" false
    if ← looksAt "<<" then
      eatMany 2
      let stripTabs ← looksAt "-"
      if stripTabs then eat
      let _ ← takeChars isBlankChar
      let (mark, quoted) ← endMark fuel [] false
      let line := (← get).line + (← get).cutLines + 1
      let text ← cutText mark stripTabs
      if quoted then return .redirect (.fromText (channel.getD 0) [.kept text])
      match (readParts fuel .following).run { rest := text, line } with
      | .ok (parts, _) => return .redirect (.fromText (channel.getD 0) parts)
      | .error e => throw e
    else if ← looksAt ">>" then
      eatMany 2
      return .redirect (.toFile (channel.getD 1) true (← target))
    else if ← looksAt ">&" then
      eatMany 2
      return .redirect (.toChannel (channel.getD 1) (← target))
    else if ← looksAt "<&" then
      eatMany 2
      return .redirect (.toChannel (channel.getD 0) (← target))
    else if (← looksAt ">|") || (← looksAt "<>") then
      let isInput ← looksAt "<"
      eatMany 2
      let w ← target
      return .redirect (if isInput then .fromFile (channel.getD 0) w
        else .toFile (channel.getD 1) false w)
    else if ← looksAt ">" then
      eat
      return .redirect (.toFile (channel.getD 1) false (← target))
    else
      eat
      return .redirect (.fromFile (channel.getD 0) (← target))

def readRaw : Nat → Parse Symbol
  | 0 => return .ending
  | fuel + 1 => do
    skipBlanks (← get).rest.length
    let operators : List (String × Symbol) := [("\n", .newline), (";;", .endCase),
      (";", .semicolon), ("&&", .both), ("&", .background), ("||", .either), ("|", .pipe),
      ("(", .opening), (")", .closing)]
    let rest := (← get).rest
    if rest.isEmpty then return .ending
    match operators.find? (fun (text, _) => text.toList.isPrefixOf rest) with
    | some (text, s) =>
      eatMany text.length
      return s
    | none =>
      match rest with
      | '<' :: _ => readRedirect fuel none
      | '>' :: _ => readRedirect fuel none
      | d :: c :: _ =>
        if d.isDigit && (c == '<' || c == '>') then
          eat
          readRedirect fuel (some (d.toNat - '0'.toNat))
        else return .word (← readParts fuel .plain)
      | _ => return .word (← readParts fuel .plain)

def readSymbol : Nat → Parse Symbol
  | 0 => return .ending
  | fuel + 1 => do
    match (← get).back with
    | some s =>
      modify (fun src => { src with back := none })
      return s
    | none => readRaw fuel

def readBeyond : Nat → Parse Symbol
  | 0 => return .ending
  | fuel + 1 => do
    match ← readSymbol fuel with
    | .newline => readBeyond fuel
    | s => return s

/-- Reads the commands inside another one, up to a symbol that ends them, which is put back. -/
def readList : Nat → Bool → Parse Command
  | 0, _ => return .sequence []
  | fuel + 1, mayBeEmpty => do return ofList (← readCommands fuel mayBeEmpty)

def readCommands : Nat → Bool → Parse (List Command)
  | 0, _ => return []
  | fuel + 1, mayBeEmpty => do
    let s ← readBeyond fuel
    putBack s
    if mayBeEmpty && endsList s then return []
    if s matches .ending then return []
    let c ← readJunction fuel
    match ← readSymbol fuel with
    | .newline => return c :: (← readCommands fuel true)
    | .semicolon => return c :: (← readCommands fuel true)
    | .background => return .background c :: (← readCommands fuel true)
    | s =>
      putBack s
      return [c]

def readAll : Nat → Parse Command
  | 0 => return .sequence []
  | fuel + 1 => do
    let c ← readList fuel true
    match ← readSymbol fuel with
    | .ending => return c
    | s => unexpected s

def readJunction : Nat → Parse Command
  | 0 => return .sequence []
  | fuel + 1 => do readMore fuel (← readPipeline fuel)

def readMore : Nat → Command → Parse Command
  | 0, c => return c
  | fuel + 1, c => do
    match ← readSymbol fuel with
    | .both =>
      putBack (← readBeyond fuel)
      readMore fuel (.both c (← readPipeline fuel))
    | .either =>
      putBack (← readBeyond fuel)
      readMore fuel (.either c (← readPipeline fuel))
    | s =>
      putBack s
      return c

def readPipeline : Nat → Parse Command
  | 0 => return .sequence []
  | fuel + 1 => do
    let s ← readSymbol fuel
    if s.keyword? == some "!" then
      let t ← readSymbol fuel
      if t matches .newline then unexpected t
      if t.keyword? == some "!" then unexpected t
      putBack t
      return .negate (← readPipeline fuel)
    putBack s
    let c ← readCommand fuel
    match ← readStages fuel with
    | [] => return c
    | cs => return .pipe (c :: cs)

def readStages : Nat → Parse (List Command)
  | 0 => return []
  | fuel + 1 => do
    match ← readSymbol fuel with
    | .pipe =>
      putBack (← readBeyond fuel)
      let c ← readCommand fuel
      return c :: (← readStages fuel)
    | s =>
      putBack s
      return []

def require : Nat → String → Parse Unit
  | 0, _ => return ()
  | fuel + 1, k => do
    let s ← readBeyond fuel
    if s.keyword? == some k then return () else unexpected s ("\"" ++ k ++ "\"")

def readRedirects : Nat → Parse (List Redirect)
  | 0 => return []
  | fuel + 1 => do
    match ← readSymbol fuel with
    | .redirect r => return r :: (← readRedirects fuel)
    | s =>
      putBack s
      return []

def readCommand : Nat → Parse Command
  | 0 => return .sequence []
  | fuel + 1 => do
    let s ← readBeyond fuel
    match s with
    | .opening =>
      let body ← readList fuel false
      match ← readSymbol fuel with
      | .closing => return redirecting (.subshell body) (← readRedirects fuel)
      | s => unexpected s "\")\""
    | .redirect _ =>
      putBack s
      readSimple fuel (← get).line [] [] []
    | .word _ =>
      match s.keyword? with
      | none =>
        putBack s
        readSimple fuel (← get).line [] [] []
      | some "if" =>
        let c ← readChoice fuel []
        return redirecting c (← readRedirects fuel)
      | some "while" => readLoop fuel false
      | some "until" => readLoop fuel true
      | some "for" => readEach fuel
      | some "case" => readSelect fuel
      | some "\x7b" =>
        let body ← readList fuel false
        require fuel "\x7d"
        return redirecting body (← readRedirects fuel)
      | some _ => unexpected s
    | s => unexpected s

def readChoice : Nat → List (Command × Command) → Parse Command
  | 0, arms => return .choose arms none
  | fuel + 1, arms => do
    let condition ← readList fuel false
    require fuel "then"
    let body ← readList fuel false
    let arms := arms ++ [(condition, body)]
    let s ← readBeyond fuel
    match s.keyword? with
    | some "elif" => readChoice fuel arms
    | some "else" =>
      let otherwise ← readList fuel false
      require fuel "fi"
      return .choose arms (some otherwise)
    | some "fi" => return .choose arms none
    | _ => unexpected s "\"fi\""

def readLoop : Nat → Bool → Parse Command
  | 0, _ => return .sequence []
  | fuel + 1, isUntil => do
    let condition ← readList fuel false
    let body ← readBody fuel
    return redirecting (.loop isUntil condition body) (← readRedirects fuel)

def readBody : Nat → Parse Command
  | 0 => return .sequence []
  | fuel + 1 => do
    require fuel "do"
    let body ← readList fuel false
    require fuel "done"
    return body

def readEach : Nat → Parse Command
  | 0 => return .sequence []
  | fuel + 1 => do
    let name ← match ← readSymbol fuel with
      | .word w => match bareText? w with
        | some s => if isName s then pure s else refuse "Syntax error: Bad for loop variable"
        | none => refuse "Syntax error: Bad for loop variable"
      | _ => refuse "Syntax error: Bad for loop variable"
    let s ← readBeyond fuel
    let words ← if s.keyword? == some "in" then do
        let ws ← readWords fuel
        match ← readSymbol fuel with
        | .newline => pure ()
        | .semicolon => pure ()
        | s => unexpected s "" false
        pure (some ws)
      else do
        match s with
        | .semicolon => pure ()
        | s => putBack s
        pure none
    let body ← readBody fuel
    return redirecting (.each name words body) (← readRedirects fuel)

def readWords : Nat → Parse (List Word)
  | 0 => return []
  | fuel + 1 => do
    match ← readSymbol fuel with
    | .word w => return w :: (← readWords fuel)
    | s =>
      putBack s
      return []

def readSelect : Nat → Parse Command
  | 0 => return .sequence []
  | fuel + 1 => do
    let word ← match ← readSymbol fuel with
      | .word w => pure w
      | s => unexpected s "word" false
    require fuel "in"
    let arms ← readArms fuel
    return redirecting (.select word arms) (← readRedirects fuel)

def readArms : Nat → Parse (List (List Word × Command))
  | 0 => return []
  | fuel + 1 => do
    let s ← readBeyond fuel
    if s.keyword? == some "esac" then return []
    let s ← match s with
      | .opening => readSymbol fuel
      | s => pure s
    putBack s
    let patterns ← readPatterns fuel
    let body ← readList fuel true
    let s ← readBeyond fuel
    match s, s.keyword? with
    | .endCase, _ => return (patterns, body) :: (← readArms fuel)
    | _, some "esac" => return [(patterns, body)]
    | s, _ => unexpected s "\";;\""

def readPatterns : Nat → Parse (List Word)
  | 0 => return []
  | fuel + 1 => do
    let w ← match ← readSymbol fuel with
      | .word w => pure w
      | s => unexpected s "" false
    match ← readSymbol fuel with
    | .pipe => return w :: (← readPatterns fuel)
    | .closing => return [w]
    | s => unexpected s "\")\"" false

def readSimple : Nat → Nat → List (String × Word) → List Word → List Redirect → Parse Command
  | 0, line, as, ws, rs => return .simple line as ws rs
  | fuel + 1, line, as, ws, rs => do
    match ← readSymbol fuel with
    | .word w =>
      match (if ws.isEmpty then assignment? w else none) with
      | some a => readSimple fuel line (as ++ [a]) ws rs
      | none => readSimple fuel line as (ws ++ [w]) rs
    | .redirect r => readSimple fuel line as ws (rs ++ [r])
    | .opening =>
      match ws.map bareText? with
      | [some name] =>
        if as.isEmpty && rs.isEmpty then
          match ← readSymbol fuel with
          | .closing =>
            if !isName name then refuse "Syntax error: Bad function name"
            putBack (← readBeyond fuel)
            return .define name (← readCommand fuel)
          | s => unexpected s "\")\"" false
        else
          putBack .opening
          return .simple line as ws rs
      | _ =>
        putBack .opening
        return .simple line as ws rs
    | s =>
      putBack s
      return .simple line as ws rs

end

def readLine (fuel : Nat) : Parse (Option (List Command)) := do
  match ← readSymbol fuel with
  | .newline => return some []
  | .ending => return none
  | s =>
    putBack s
    return some (← go fuel)
where
  go : Nat → Parse (List Command)
    | 0 => return []
    | fuel + 1 => do
      let c ← readJunction fuel
      let (c, goesOn) ← match ← readSymbol fuel with
        | .newline => pure (c, false)
        | .ending => do
          putBack .ending
          pure (c, false)
        | .semicolon => pure (c, true)
        | .background => pure (.background c, true)
        | s => unexpected s
      if !goesOn then return [c]
      match ← readSymbol fuel with
      | .newline => return [c]
      | .ending =>
        putBack .ending
        return [c]
      | s =>
        putBack s
        return c :: (← go fuel)

end Supermartingale.Shell
