import Supermartingale.Shell.Syntax

/-!
# Arithmetic in scripts

Expressions over whole numbers of 64 bits, whose results wrap around. A name stands for the number
that its value spells, and zero if it has none; an expression may also set names.
-/

namespace Supermartingale.Shell

abbrev Bindings := List (String × List Char)

def Bindings.set (b : Bindings) (name : String) (value : List Char) : Bindings :=
  if b.any (·.1 == name) then b.map (fun (k, v) => if k == name then (k, value) else (k, v))
  else b ++ [(name, value)]

namespace Arithmetic

inductive Operator where
  | mul | div | rem | add | sub | shiftLeft | shiftRight
  | lt | le | gt | ge | eq | ne | bitAnd | bitXor | bitOr
deriving DecidableEq, Repr

inductive Sign where
  | plus | minus | not | complement
deriving DecidableEq, Repr

inductive Expr where
  | number (n : Int64)
  | name (s : String)
  | sign (s : Sign) (e : Expr)
  | binary (o : Operator) (a b : Expr)
  | both (a b : Expr)
  | either (a b : Expr)
  | choice (c a b : Expr)
  | assign (s : String) (o : Option Operator) (e : Expr)
deriving Repr

inductive Symbol where
  | number (n : Int64)
  | name (s : String)
  | mark (s : String)
  | strange
deriving DecidableEq, Repr

def greatest : Int64 := 0x7fffffffffffffff

/-- The value of digits in a base; a number that is too large is the greatest one. -/
def ofDigits (base : Nat) (cs : List Char) : Int64 :=
  let value := cs.foldl (fun n c =>
    base * n + (if c.isDigit then c.toNat - '0'.toNat else c.toLower.toNat - 'a'.toNat + 10)) 0
  if value ≥ Nat.pow 2 63 then greatest else Int64.ofNat value

def isHexDigit (c : Char) : Bool := c.isDigit || ('a' ≤ c.toLower && c.toLower ≤ 'f')

def readNumber? (cs : List Char) : Option (Int64 × List Char) :=
  match cs with
  | '0' :: x :: h :: rest =>
    if (x == 'x' || x == 'X') && isHexDigit h then
      let cs := h :: rest
      some (ofDigits 16 (cs.takeWhile isHexDigit), cs.dropWhile isHexDigit)
    else octal cs
  | '0' :: _ => octal cs
  | c :: _ =>
    if c.isDigit then some (ofDigits 10 (cs.takeWhile Char.isDigit), cs.dropWhile Char.isDigit)
    else none
  | [] => none
where
  octal (cs : List Char) : Option (Int64 × List Char) :=
    let isOctal (c : Char) : Bool := '0' ≤ c && c ≤ '7'
    some (ofDigits 8 (cs.takeWhile isOctal), cs.dropWhile isOctal)

def isTooLarge (cs : List Char) : Bool :=
  cs.head? != some '0' && cs.all Char.isDigit && Nat.pow 2 63 ≤ cs.foldl (fun n c => 10 * n + (c.toNat - '0'.toNat)) 0

def marks : List String :=
  ["<<=", ">>=", "<<", ">>", "<=", ">=", "==", "!=", "&&", "||", "*=", "/=", "%=", "+=", "-=", "&=",
    "^=", "|=", "*", "/", "%", "+", "-", "<", ">", "&", "^", "|", "!", "~", "?", ":", "=", "(", ")"]

def isSpace (c : Char) : Bool := c == ' ' || c == '\t' || c == '\n'

def symbols : Nat → List Char → List Symbol
  | 0, _ => []
  | _ + 1, [] => []
  | fuel + 1, c :: rest =>
    if isSpace c then symbols fuel rest
    else if startsName c then
      .name (String.ofList ((c :: rest).takeWhile continuesName)) :: symbols fuel ((c :: rest).dropWhile continuesName)
    else match readNumber? (c :: rest) with
      | some (n, rest) => .number n :: symbols fuel rest
      | none =>
        match marks.find? (fun m => m.toList.isPrefixOf (c :: rest)) with
        | some m => .mark m :: symbols fuel ((c :: rest).drop m.length)
        | none => [.strange]

def levels : List (List (String × Operator)) :=
  [[("*", .mul), ("/", .div), ("%", .rem)],
    [("+", .add), ("-", .sub)],
    [("<<", .shiftLeft), (">>", .shiftRight)],
    [("<", .lt), ("<=", .le), (">", .gt), (">=", .ge)],
    [("==", .eq), ("!=", .ne)],
    [("&", .bitAnd)],
    [("^", .bitXor)],
    [("|", .bitOr)]]

def assignment? (m : String) : Option (Option Operator) :=
  if m == "=" then some none
  else (levels.flatten.find? (fun (k, o) => k ++ "=" == m && !([Operator.lt, .gt].contains o))).map
    (fun (_, o) => some o)

mutual

def readAny : Nat → List Symbol → Except String (Expr × List Symbol)
  | 0, _ => .error "expecting primary"
  | fuel + 1, ss =>
    match ss with
    | .name s :: .mark m :: rest =>
      match assignment? m with
      | some o => do
        let (e, rest) ← readAny fuel rest
        return (.assign s o e, rest)
      | none => readChoice fuel ss
    | ss => readChoice fuel ss

def readChoice : Nat → List Symbol → Except String (Expr × List Symbol)
  | 0, _ => .error "expecting primary"
  | fuel + 1, ss => do
    let (c, rest) ← readEither fuel ss
    match rest with
    | .mark "?" :: rest =>
      let (a, rest) ← readAny fuel rest
      match rest with
      | .mark ":" :: rest =>
        let (b, rest) ← readChoice fuel rest
        return (.choice c a b, rest)
      | _ => throw "expecting ':'"
    | rest => return (c, rest)

def readEither : Nat → List Symbol → Except String (Expr × List Symbol)
  | 0, _ => .error "expecting primary"
  | fuel + 1, ss => do
    let (a, rest) ← readBoth fuel ss
    match rest with
    | .mark "||" :: rest =>
      let (b, rest) ← readEither fuel rest
      return (.either a b, rest)
    | rest => return (a, rest)

def readBoth : Nat → List Symbol → Except String (Expr × List Symbol)
  | 0, _ => .error "expecting primary"
  | fuel + 1, ss => do
    let (a, rest) ← readLevel fuel levels.reverse ss
    match rest with
    | .mark "&&" :: rest =>
      let (b, rest) ← readBoth fuel rest
      return (.both a b, rest)
    | rest => return (a, rest)

def readLevel : Nat → List (List (String × Operator)) → List Symbol →
    Except String (Expr × List Symbol)
  | 0, _, _ => .error "expecting primary"
  | fuel + 1, [], ss => readPrimary fuel ss
  | fuel + 1, level :: stronger, ss => do
    let (a, rest) ← readLevel fuel stronger ss
    readLevelRest fuel level stronger a rest

def readLevelRest : Nat → List (String × Operator) → List (List (String × Operator)) → Expr →
    List Symbol → Except String (Expr × List Symbol)
  | 0, _, _, _, _ => .error "expecting primary"
  | fuel + 1, level, stronger, a, ss =>
    match ss with
    | .mark m :: rest =>
      match level.lookup m with
      | some o => do
        let (b, rest) ← readLevel fuel stronger rest
        readLevelRest fuel level stronger (.binary o a b) rest
      | none => .ok (a, ss)
    | ss => .ok (a, ss)

def readPrimary : Nat → List Symbol → Except String (Expr × List Symbol)
  | 0, _ => .error "expecting primary"
  | fuel + 1, ss =>
    let signed (s : Sign) (rest : List Symbol) : Except String (Expr × List Symbol) := do
      let (e, rest) ← readPrimary fuel rest
      return (.sign s e, rest)
    match ss with
    | .number n :: rest => .ok (.number n, rest)
    | .name s :: rest => .ok (.name s, rest)
    | .mark "(" :: rest => do
      let (e, rest) ← readAny fuel rest
      match rest with
      | .mark ")" :: rest => return (e, rest)
      | _ => throw "expecting ')'"
    | .mark "!" :: rest => signed .not rest
    | .mark "~" :: rest => signed .complement rest
    | .mark "+" :: rest => signed .plus rest
    | .mark "-" :: rest => signed .minus rest
    | _ => .error "expecting primary"

end

inductive Fault where
  | malformed (why : String)
  | notANumber (cs : List Char)
deriving DecidableEq, Repr

/-- The number that a value spells, blanks around it aside; a blank value is zero. -/
def ofText (cs : List Char) : Except Fault Int64 :=
  let trimmed := cs.dropWhile (·.isWhitespace)
  let (negative, digits) := match trimmed with
    | '-' :: rest => (true, rest)
    | '+' :: rest => (false, rest)
    | rest => (false, rest)
  if trimmed.isEmpty then .ok 0
  else match readNumber? digits with
    | some (n, rest) =>
      if rest.all (·.isWhitespace) then .ok (if negative then -n else n)
      else .error (.notANumber cs)
    | none => .error (.notANumber cs)

def toText (n : Int64) : List Char := (toString n.toInt).toList

def ofBool (b : Bool) : Int64 := if b then 1 else 0

def apply (o : Operator) (a b : Int64) : Except Fault Int64 :=
  match o with
  | .mul => .ok (a * b)
  | .div => if b == 0 then .error (.malformed "division by zero") else .ok (a / b)
  | .rem => if b == 0 then .error (.malformed "division by zero") else .ok (a % b)
  | .add => .ok (a + b)
  | .sub => .ok (a - b)
  | .shiftLeft => .ok (a <<< b)
  | .shiftRight => .ok (a >>> b)
  | .lt => .ok (ofBool (a < b))
  | .le => .ok (ofBool (a ≤ b))
  | .gt => .ok (ofBool (b < a))
  | .ge => .ok (ofBool (b ≤ a))
  | .eq => .ok (ofBool (a == b))
  | .ne => .ok (ofBool (a != b))
  | .bitAnd => .ok (a &&& b)
  | .bitXor => .ok (a ^^^ b)
  | .bitOr => .ok (a ||| b)

def named (s : String) : StateT Bindings (Except Fault) Int64 := do
  ofText (((← get).lookup s).getD [])

def Expr.eval : Expr → StateT Bindings (Except Fault) Int64
  | .number n => return n
  | .name s => named s
  | .sign s e => do
    let n ← e.eval
    return match s with
      | .plus => n
      | .minus => -n
      | .not => ofBool (n == 0)
      | .complement => ~~~ n
  | .binary o a b => do
    let x ← a.eval
    let y ← b.eval
    apply o x y
  | .both a b => do
    if (← a.eval) == 0 then return 0
    return ofBool ((← b.eval) != 0)
  | .either a b => do
    if (← a.eval) != 0 then return 1
    return ofBool ((← b.eval) != 0)
  | .choice c a b => do
    if (← c.eval) != 0 then a.eval else b.eval
  | .assign s o e => do
    let n ← e.eval
    let value ← match o with
      | none => pure n
      | some o => do apply o (← named s) n
    modify (·.set s (toText value))
    return value

def evaluate (cs : List Char) (b : Bindings) : Except Fault (Int64 × Bindings) := do
  let ss := symbols (cs.length + 1) cs
  match readAny (20 * ss.length + 20) ss with
  | .ok (e, []) => e.eval.run b
  | .ok _ => throw (.malformed "expecting EOF")
  | .error why => throw (.malformed why)

def Fault.message (cs : List Char) : Fault → List Char
  | malformed why => ("arithmetic expression: " ++ why ++ ": \"").toList ++ cs ++ ['"']
  | notANumber value => "Illegal number: ".toList ++ value

end Arithmetic

end Supermartingale.Shell
