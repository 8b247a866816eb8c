import Supermartingale.Number.Spelling
import Supermartingale.Text.Replace
import Supermartingale.Value

/-!
# Scalars of YAML documents

The tag of a node says what it stands for. A plain word without a tag gets the one that its spelling
suggests: a truth value, nothing, a number in one of several notations, a date, or a text.
-/

namespace Supermartingale.Yaml

/-! ## Moments

A date is written with dashes; a time may follow it, with a fraction of a second and the distance to
universal time. Such a word must also name a day of the calendar. -/

structure Moment where
  year : Nat
  month : Nat
  day : Nat
  time : Option (Nat × Nat × Nat × Nat) := none
  offset : Option Int := none
deriving DecidableEq, Repr

namespace Moment

def digits? (least most : Nat) (cs : List Char) : Option (Nat × List Char) :=
  let ds := (cs.take most).takeWhile Char.isDigit
  if ds.length < least then none else some (digitsValue ds, cs.drop ds.length)

def behind? (c : Char) (cs : List Char) : Option (List Char) :=
  match cs with
  | d :: rest => if c == d then some rest else none
  | [] => none

def offset? (cs : List Char) : Option (Option Int) :=
  match cs with
  | [] => some none
  | _ =>
    match cs.dropWhile (fun c => c == ' ' || c == '\t') with
    | ['Z'] => some (some 0)
    | sign :: rest => do
      if sign != '+' && sign != '-' then none
      let (hours, rest) ← digits? 1 2 rest
      let minutes ← match rest with
        | [] => some 0
        | ':' :: rest => do
          let (minutes, rest) ← digits? 2 2 rest
          if rest.isEmpty then some minutes else none
        | _ => none
      let total : Int := hours * 60 + minutes
      some (some (if sign == '-' then -total else total))
    | [] => none

def fraction (ds : List Char) : Nat := digitsValue ((ds ++ List.replicate 6 '0').take 6)

def time? (cs : List Char) : Option ((Nat × Nat × Nat × Nat) × Option Int) := do
  let cs ← match cs with
    | 'T' :: rest => some rest
    | 't' :: rest => some rest
    | c :: rest =>
      if c == ' ' || c == '\t' then some (rest.dropWhile (fun c => c == ' ' || c == '\t')) else none
    | [] => none
  let (hour, cs) ← digits? 1 2 cs
  let (minute, cs) ← digits? 2 2 (← behind? ':' cs)
  let (second, cs) ← digits? 2 2 (← behind? ':' cs)
  let (part, cs) := match cs with
    | '.' :: rest => (fraction (rest.takeWhile Char.isDigit), rest.dropWhile Char.isDigit)
    | cs => (0, cs)
  let offset ← offset? cs
  return ((hour, minute, second, part), offset)

/-- The moment that a word spells. A date on its own has two digits for month and day. -/
def read? (s : String) : Option Moment := do
  let (year, cs) ← digits? 4 4 s.toList
  let (month, afterMonth) ← digits? 1 2 (← behind? '-' cs)
  let (day, rest) ← digits? 1 2 (← behind? '-' afterMonth)
  if rest.isEmpty then
    if s.length = 10 then some { year, month, day } else none
  else do
    let (time, offset) ← time? rest
    return { year, month, day, time := some time, offset }

def isLeap (year : Nat) : Bool := year % 4 = 0 && (year % 100 ≠ 0 || year % 400 = 0)

def daysIn (year month : Nat) : Nat :=
  if month = 2 then (if isLeap year then 29 else 28)
  else if month = 4 || month = 6 || month = 9 || month = 11 then 30
  else 31

def isValid (m : Moment) : Bool :=
  1 ≤ m.year && 1 ≤ m.month && m.month ≤ 12 && 1 ≤ m.day && m.day ≤ daysIn m.year m.month &&
    m.time.all (fun (h, min, s, _) => h < 24 && min < 60 && s < 60) &&
    m.offset.all (fun o => o.natAbs < 1440)

def padded (width n : Nat) : String :=
  let s := toString n
  String.ofList (List.replicate (width - s.length) '0') ++ s

def offsetText (o : Int) : String :=
  (if o < 0 then "-" else "+") ++ padded 2 (o.natAbs / 60) ++ ":" ++ padded 2 (o.natAbs % 60)

def text (m : Moment) : String :=
  let date := padded 4 m.year ++ "-" ++ padded 2 m.month ++ "-" ++ padded 2 m.day
  match m.time with
  | none => date
  | some (h, min, s, part) =>
    date ++ " " ++ padded 2 h ++ ":" ++ padded 2 min ++ ":" ++ padded 2 s ++
      (if part = 0 then "" else "." ++ padded 6 part) ++ m.offset.elim "" offsetText

def offsetQuoted (o : Int) : String :=
  if o = 0 then "datetime.timezone.utc"
  else
    let seconds := o * 60
    let days := if seconds < 0 then "days=-1, " else ""
    "datetime.timezone(datetime.timedelta(" ++ days ++ "seconds=" ++ toString (seconds.emod 86400) ++ "))"

def quoted (m : Moment) : String :=
  let date := [toString m.year, toString m.month, toString m.day]
  match m.time with
  | none => "datetime.date(" ++ String.intercalate ", " date ++ ")"
  | some (h, min, s, part) =>
    let seconds := if part ≠ 0 then [toString s, toString part] else if s ≠ 0 then [toString s] else []
    let zone := m.offset.elim [] (fun o => ["tzinfo=" ++ offsetQuoted o])
    "datetime.datetime(" ++ String.intercalate ", " (date ++ [toString h, toString min] ++ seconds ++ zone) ++ ")"

def value (m : Moment) : Except Error Value :=
  if m.isValid then
    let sort := if m.time.isSome then "datetime.datetime" else "datetime.date"
    .ok (.foreign ⟨sort, m.text, m.quoted⟩)
  else .error .noSuchDate

end Moment

/-! ## Scalars -/

inductive Tag where
  | null
  | bool
  | int
  | float
  | timestamp
  | text
  | sequence
  | mapping
  | set
  | pairs
  | merge
  | value
  | other (name : String)
deriving DecidableEq, Repr

namespace Tag

def commonStart : String := "tag:yaml.org,2002:"

def common : List (String × Tag) := [
  ("null", null), ("bool", bool), ("int", int), ("float", float), ("timestamp", timestamp),
  ("str", text), ("seq", sequence), ("map", mapping), ("set", set), ("omap", pairs),
  ("pairs", pairs), ("merge", merge), ("value", value)]

def ofName (name : String) : Tag :=
  ((common.find? (fun (n, _) => commonStart ++ n == name)).map (·.2)).getD (other name)

end Tag

/-! ## Spellings -/

def trueWords : List String := ["yes", "Yes", "YES", "true", "True", "TRUE", "on", "On", "ON"]

def falseWords : List String := ["no", "No", "NO", "false", "False", "FALSE", "off", "Off", "OFF"]

def nullWords : List String := ["~", "null", "Null", "NULL", ""]

def cutSign : List Char → Bool × List Char
  | '-' :: cs => (true, cs)
  | '+' :: cs => (false, cs)
  | cs => (false, cs)

def allOf (ok : Char → Bool) (cs : List Char) : Bool := !cs.isEmpty && cs.all (fun c => ok c || c == '_')

def isHexDigit (c : Char) : Bool := c.isDigit || 'a' ≤ c && c ≤ 'f' || 'A' ≤ c && c ≤ 'F'

def isOctal (c : Char) : Bool := '0' ≤ c && c ≤ '7'

def inGroup (c : Char) : Bool := c.isDigit || c == '_'

def behindSixtieths? : Nat → List Char → Option (List Char)
  | 0, _ => none
  | fuel + 1, ':' :: a :: rest =>
    if !a.isDigit then none
    else
      let rest := match rest with
        | b :: more => if a ≤ '5' && b.isDigit then more else rest
        | [] => []
      some ((behindSixtieths? fuel rest).getD rest)
  | _ + 1, _ => none

def spellsInt (cs : List Char) : Bool :=
  match cs with
  | ['0'] => true
  | '0' :: 'b' :: rest => allOf (fun c => c == '0' || c == '1') rest
  | '0' :: 'x' :: rest => allOf isHexDigit rest
  | '0' :: rest => allOf isOctal rest
  | c :: _ =>
    if !c.isDigit then false
    else
      let rest := cs.dropWhile inGroup
      rest.isEmpty || behindSixtieths? cs.length rest == some []
  | [] => false

def spellsPower : List Char → Bool
  | [] => true
  | e :: sign :: digits =>
    (e == 'e' || e == 'E') && (sign == '-' || sign == '+') && !digits.isEmpty && digits.all Char.isDigit
  | _ => false

def spellsFloat (cs : List Char) : Bool :=
  let unsigned := (cutSign cs).2
  let isSigned := unsigned.length < cs.length
  let word := String.ofList unsigned
  if [".inf", ".Inf", ".INF"].contains word then true
  else if [".nan", ".NaN", ".NAN"].contains word then !isSigned
  else match unsigned with
    | '.' :: c :: rest => !isSigned && c.isDigit && spellsPower (rest.dropWhile inGroup)
    | c :: _ =>
      let rest := unsigned.dropWhile inGroup
      c.isDigit && (match rest with
        | '.' :: more => spellsPower (more.dropWhile inGroup)
        | _ => match behindSixtieths? cs.length rest with
          | some ('.' :: more) => more.all inGroup
          | _ => false)
    | [] => false

def impliedTag (s : String) : Tag :=
  let cs := s.toList
  if trueWords.contains s || falseWords.contains s then .bool
  else if spellsFloat cs then .float
  else if spellsInt (cutSign cs).2 then .int
  else if s == "<<" then .merge
  else if nullWords.contains s then .null
  else if (Moment.read? s).isSome then .timestamp
  else if s == "=" then .value
  else if s == "!" || s == "&" || s == "*" then .other (Tag.commonStart ++ "yaml")
  else .text

/-! ## Values -/

def inBase (base : Nat) (ok : Char → Bool) (cs : List Char) : Except Error Int :=
  let (negative, ds) := cutSign cs
  if ds.isEmpty || !ds.all ok then .error .notWhole
  else
    let n : Int := (ds.foldl (fun n c =>
      let d := if c.isDigit then c.toNat - '0'.toNat else c.toLower.toNat - 'a'.toNat + 10
      n * base + d) 0 : Nat)
    .ok (if negative then -n else n)

def decimalInt (s : String) : Except Error Int :=
  match Number.whole? s with
  | some n => .ok n
  | none => .error .notWhole

/-- The whole number of a scalar: underscores do not count, and parts between colons are in base
sixty. -/
def intValue (s : String) : Except Error Value := do
  let cs := s.toList.filter (· != '_')
  if cs.isEmpty then throw .missingPosition
  let (negative, cs) := cutSign cs
  let n ← match cs with
    | ['0'] => pure 0
    | '0' :: 'b' :: rest => inBase 2 (fun c => c == '0' || c == '1') rest
    | '0' :: 'x' :: rest => inBase 16 isHexDigit rest
    | '0' :: _ => inBase 8 isOctal cs
    | [] => throw .missingPosition
    | _ =>
      let parts ← (Text.splitOn ":" (String.ofList cs)).mapM decimalInt
      pure (parts.foldl (fun n p => n * 60 + p) 0)
  return .int (if negative then -n else n)

def decimalFloat (s : String) : Except Error Float :=
  match Number.real? s with
  | some x => .ok x
  | none => .error .notWhole

def sixtiethsValue (parts : List Float) : Float :=
  (parts.reverse.foldl (fun (sum, base) (x : Float) => (sum + x * base, base * 60.0))
    ((0.0 : Float), (1.0 : Float))).1

def floatValue (s : String) : Except Error Value := do
  let cs := (s.toList.filter (· != '_')).map Char.toLower
  if cs.isEmpty then throw .missingPosition
  let (negative, cs) := cutSign cs
  let word := String.ofList cs
  let x ←
    if word == ".inf" then pure (1.0 / 0.0)
    else if word == ".nan" then return .number (.double (0.0 / 0.0))
    else if cs.contains ':' then
      pure (sixtiethsValue (← (Text.splitOn ":" word).mapM decimalFloat))
    else decimalFloat word
  return .number (.double (if negative then -x else x))

def boolValue (s : String) : Except Error Value :=
  let word := String.ofList (s.toList.map Char.toLower)
  if trueWords.contains word then .ok (.bool true)
  else if falseWords.contains word then .ok (.bool false)
  else .error (.missingKey word)

def scalarValue (tag : Tag) (s : String) : Except Error Value :=
  match tag with
  | .null => .ok .null
  | .bool => boolValue s
  | .int => intValue s
  | .float => floatValue s
  | .timestamp => (Moment.read? s).elim (.error .absentPart) Moment.value
  | .text => .ok (.text s)
  | _ => .error .valuelessYaml

end Supermartingale.Yaml
