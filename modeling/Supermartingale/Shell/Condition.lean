import Supermartingale.Files
import Supermartingale.Shell.Arithmetic

/-!
# Conditions in scripts

A condition compares texts or numbers or asks for files. Conditions are joined by signs for not, and
and or, and put in brackets. A word that could be an operator is an operand where an operand is
needed.
-/

namespace Supermartingale.Text

/-! ## Texts as octets -/

def octets (s : String) : List Char := s.toUTF8.toList.map (fun b => Char.ofNat b.toNat)

structure OctetFault where
  first : Nat
  count : Nat
  octet : Nat
  why : String
deriving DecidableEq, Repr

def OctetFault.message (f : OctetFault) : String :=
  let digit (n : Nat) : String := String.ofList (Nat.toDigits 16 n)
  "'utf-8' codec can't decode " ++
    (if f.count ≤ 1 then
      "byte 0x" ++ digit f.octet ++ " in position " ++ toString f.first
    else "bytes in position " ++ toString f.first ++ "-" ++ toString (f.first + f.count - 1)) ++
    ": " ++ f.why

/-- How many octets follow the first one of a character, and between which bounds the second one
lies; none if a character cannot start in this way. -/
def continuation? (b : Nat) : Option (Nat × Nat × Nat) :=
  if b < 0x80 then some (0, 0, 0)
  else if b < 0xC2 then none
  else if b < 0xE0 then some (1, 0x80, 0xBF)
  else if b = 0xE0 then some (2, 0xA0, 0xBF)
  else if b = 0xED then some (2, 0x80, 0x9F)
  else if b < 0xF0 then some (2, 0x80, 0xBF)
  else if b = 0xF0 then some (3, 0x90, 0xBF)
  else if b < 0xF4 then some (3, 0x80, 0xBF)
  else if b = 0xF4 then some (3, 0x80, 0x8F)
  else none

def fitting (low high : Nat) : Nat → List Char → Nat
  | 0, _ => 0
  | _ + 1, [] => 0
  | n + 1, c :: rest =>
    if low ≤ c.toNat && c.toNat ≤ high then fitting 0x80 0xBF n rest + 1 else 0

def joinOctets (first : Nat) (following : List Char) : Char :=
  let start := match following.length with
    | 0 => first
    | 1 => first % 32
    | 2 => first % 16
    | _ => first % 8
  Char.ofNat (following.foldl (fun n c => 64 * n + c.toNat % 64) start)

def readOctets : Nat → Nat → List Char → Except OctetFault (List Char)
  | 0, _, _ => .ok []
  | _ + 1, _, [] => .ok []
  | fuel + 1, position, c :: rest =>
    match continuation? c.toNat with
    | none => .error ⟨position, 1, c.toNat, "invalid start byte"⟩
    | some (count, low, high) =>
      let found := fitting low high count rest
      if found = count then do
        let after ← readOctets fuel (position + count + 1) (rest.drop count)
        return joinOctets c.toNat (rest.take count) :: after
      else if found = rest.length then
        .error ⟨position, found + 1, c.toNat, "unexpected end of data"⟩
      else .error ⟨position, found + 1, c.toNat, "invalid continuation byte"⟩

def ofOctets (cs : List Char) : Except OctetFault String := do
  return String.ofList (← readOctets (cs.length + 1) 0 cs)

def ofOctetsOrSelf (cs : List Char) : String :=
  match ofOctets cs with
  | .ok s => s
  | .error _ => String.ofList cs

end Supermartingale.Text

/-! ## Conditions -/

namespace Supermartingale.Shell.Condition

def unary : List String :=
  ["-r", "-w", "-x", "-e", "-f", "-d", "-c", "-b", "-p", "-u", "-g", "-k", "-s", "-t", "-z", "-n",
    "-h", "-O", "-G", "-L", "-S"]

def binary : List String := ["=", "==", "!=", "<", ">", "-eq", "-ne", "-ge", "-gt", "-le", "-lt", "-nt", "-ot", "-ef"]

structure Setting where
  files : Files

def number (cs : List Char) : Except (List Char) Int :=
  let trimmed := cs.dropWhile (·.isWhitespace)
  let (negative, rest) := match trimmed with
    | '-' :: rest => (true, rest)
    | '+' :: rest => (false, rest)
    | rest => (false, rest)
  let digits := rest.takeWhile Char.isDigit
  let value : Int := digitsValue digits
  if digits.isEmpty || !(rest.dropWhile Char.isDigit).all (·.isWhitespace) ||
      Int.pow 2 63 ≤ value then
    .error ("Illegal number: ".toList ++ cs)
  else .ok (if negative then -value else value)

def path (cs : List Char) : String := Text.ofOctetsOrSelf cs

def holdsUnary (s : Setting) (op : String) (w : List Char) : Except (List Char) Bool := do
  let p := path w
  let device := p == "/dev/null"
  match op with
  | "-z" => return w.isEmpty
  | "-n" => return !w.isEmpty
  | "-t" =>
    let _ ← number w
    return false
  | "-e" => return device || s.files.exists? p
  | "-r" => return device || s.files.exists? p
  | "-w" => return device || s.files.exists? p
  | "-O" => return device || s.files.exists? p
  | "-G" => return device || s.files.exists? p
  | "-f" => return s.files.isFile p
  | "-d" => return s.files.isFolder p || p == "/dev"
  | "-c" => return device
  | "-h" => return s.files.isLink p
  | "-L" => return s.files.isLink p
  | "-x" => return match s.files.entry? p with
    | some (.file _ runnable) => runnable
    | some .folder => true
    | none => false
  | "-s" => return match s.files.entry? p with
    | some (.file text _) => !text.isEmpty
    | some .folder => true
    | none => false
  | _ => return false

def before : List Char → List Char → Bool
  | [], [] => false
  | [], _ :: _ => true
  | _ :: _, [] => false
  | c :: cs, d :: ds => if c == d then before cs ds else c < d

def holdsBinary (s : Setting) (op : String) (a b : List Char) : Except (List Char) Bool := do
  let compare (test : Int → Int → Bool) : Except (List Char) Bool := do
    let x ← number a
    let y ← number b
    return test x y
  match op with
  | "=" => return a == b
  | "==" => return a == b
  | "!=" => return a != b
  | "<" => return before a b
  | ">" => return before b a
  | "-eq" => compare (· == ·)
  | "-ne" => compare (· != ·)
  | "-ge" => compare (fun x y => y ≤ x)
  | "-gt" => compare (fun x y => y < x)
  | "-le" => compare (fun x y => x ≤ y)
  | "-lt" => compare (fun x y => x < y)
  | "-ef" => return s.files.exists? (path a) && s.files.locate? (path a) == s.files.locate? (path b)
  | _ => return false

def isBinary (w : List Char) : Bool := binary.contains (String.ofList w)

def isUnary (w : List Char) : Bool := unary.contains (String.ofList w)

def opensUnary : List (List Char) → Bool
  | w :: a :: b :: _ => isUnary w && !(isBinary a && b != [')'])
  | w :: _ :: [] => isUnary w
  | _ => false

abbrev Step := Except (List Char) (Bool × List (List Char))

mutual

def either (s : Setting) : Nat → List (List Char) → Step
  | 0, ws => .ok (false, ws)
  | fuel + 1, ws => do
    let (a, rest) ← both s fuel ws
    match rest with
    | ['-', 'o'] :: rest =>
      let (b, rest) ← either s fuel rest
      return (a || b, rest)
    | rest => return (a, rest)

def both (s : Setting) : Nat → List (List Char) → Step
  | 0, ws => .ok (false, ws)
  | fuel + 1, ws => do
    let (a, rest) ← negated s fuel ws
    match rest with
    | ['-', 'a'] :: rest =>
      let (b, rest) ← both s fuel rest
      return (a && b, rest)
    | rest => return (a, rest)

def negated (s : Setting) : Nat → List (List Char) → Step
  | 0, ws => .ok (false, ws)
  | fuel + 1, ws =>
    match ws with
    | ['!'] :: rest => do
      let (a, rest) ← negated s fuel rest
      return (!a, rest)
    | ws => single s fuel ws

def single (s : Setting) : Nat → List (List Char) → Step
  | 0, ws => .ok (false, ws)
  | fuel + 1, ws =>
    match ws with
    | [] => .ok (false, [])
    | ['('] :: next :: more =>
      if next == [')'] then .ok (false, more)
      else do
        let (a, rest) ← either s fuel (next :: more)
        match rest with
        | [')'] :: rest => return (a, rest)
        | _ => throw "closing paren expected".toList
    | w :: rest =>
      if opensUnary ws then
        match rest with
        | a :: rest => do return (← holdsUnary s (String.ofList w) a, rest)
        | [] => .error (w ++ ": argument expected".toList)
      else match rest with
        | op :: b :: rest =>
          if isBinary op then do return (← holdsBinary s (String.ofList op) w b, rest)
          else .ok (!w.isEmpty, op :: b :: rest)
        | [op] =>
          if isBinary op then .error (op ++ ": argument expected".toList)
          else .ok (!w.isEmpty, [op])
        | [] => .ok (!w.isEmpty, [])

end

/-- Whether words form a condition that holds; the message if they form none, which names the last
word that was understood. -/
def holds (s : Setting) : Nat → List (List Char) → Except (List Char) Bool
  | 0, _ => .ok false
  | fuel + 1, ws =>
    let plain (ws : List (List Char)) : Except (List Char) Bool := do
      let (a, rest) ← either s (8 * ws.length + 8) ws
      if rest.isEmpty then return a
      else throw (ws.getD (ws.length - rest.length - 1) [] ++ ": unexpected operator".toList)
    if ws.isEmpty then .ok false
    else if ws.length = 3 && (ws.drop 1).head?.any isBinary then plain ws
    else if ws.length = 3 || ws.length = 4 then
      if ws.head? == some ['('] && ws.getLast? == some [')'] then plain ((ws.drop 1).dropLast)
      else if ws.head? == some ['!'] then do return !(← holds s fuel (ws.drop 1))
      else plain ws
    else plain ws

end Supermartingale.Shell.Condition
