import Supermartingale.Decimal.Fixed
import Supermartingale.Number.Spelling
import Supermartingale.Shell.Arithmetic

/-!
# What scripts print

Two commands print their arguments: one writes them as they are, with a blank between them, and the
other one puts them into a pattern. Both carry out backslashes. Texts are octets.
-/

namespace Supermartingale.Shell

/-! ## Backslashes -/

def isOctalDigit (c : Char) : Bool := '0' ≤ c && c ≤ '7'

def escaped? : Char → Option Char
  | 'a' => some '\x07'
  | 'b' => some '\x08'
  | 'e' => some '\x1b'
  | 'f' => some '\x0c'
  | 'n' => some '\n'
  | 'r' => some '\r'
  | 't' => some '\t'
  | 'v' => some '\x0b'
  | '\\' => some '\\'
  | _ => none

/-- The octet that stands behind a backslash, and the rest: a letter or up to three octal digits. -/
def escape (cs : List Char) : Char × List Char :=
  match cs with
  | c :: rest =>
    if isOctalDigit c then
      let digits := (cs.take 3).takeWhile isOctalDigit
      let value := digits.foldl (fun n d => 8 * n + (d.toNat - '0'.toNat)) 0
      (Char.ofNat (value % 256), cs.drop digits.length)
    else match escaped? c with
      | some e => (e, rest)
      | none => ('\\', cs)
  | [] => ('\\', [])

/-- A text with its backslashes carried out, and whether it goes on: `\c` ends all printing. -/
def unescape : Nat → List Char → List Char × Bool
  | 0, cs => (cs, true)
  | _ + 1, [] => ([], true)
  | _ + 1, '\\' :: 'c' :: _ => ([], false)
  | fuel + 1, '\\' :: rest =>
    let rest := match rest with
      | '0' :: d :: more => if isOctalDigit d then d :: more else rest
      | rest => rest
    let (c, rest) := escape rest
    let (after, goesOn) := unescape fuel rest
    (c :: after, goesOn)
  | fuel + 1, c :: rest =>
    let (after, goesOn) := unescape fuel rest
    (c :: after, goesOn)

def joinWords (separator : List Char) (words : List (List Char)) : List Char := (words.intersperse separator).flatten

def echoed (words : List (List Char)) : List Char :=
  let (words, ended) := match words with
    | ['-', 'n'] :: words => (words, false)
    | words => (words, true)
  let text := joinWords [' '] words
  let (text, goesOn) := unescape (text.length + 1) text
  text ++ (if goesOn && ended then ['\n'] else [])

/-! ## Patterns with places for words -/

structure Layout where
  left : Bool := false
  zeros : Bool := false
  plus : Bool := false
  blank : Bool := false
  alternative : Bool := false
  width : Nat := 0
  precision : Option Nat := none

namespace Layout

def pad (l : Layout) (cs : List Char) : List Char :=
  let blanks := List.replicate (l.width - cs.length) ' '
  if l.left then cs ++ blanks else blanks ++ cs

def padNumber (l : Layout) (start digits : List Char) (mayZero : Bool) : List Char :=
  if l.zeros && !l.left && mayZero then
    start ++ List.replicate (l.width - start.length - digits.length) '0' ++ digits
  else l.pad (start ++ digits)

def digits (l : Layout) (base n : Nat) : List Char :=
  let ds := if n = 0 && l.precision == some 0 then [] else Nat.toDigits base n
  List.replicate (l.precision.getD 1 - ds.length) '0' ++ ds

def sign (l : Layout) (negative : Bool) : List Char :=
  if negative then ['-'] else if l.plus then ['+'] else if l.blank then [' '] else []

def signed (l : Layout) (n : Int64) : List Char :=
  l.padNumber (l.sign (n < 0)) (l.digits 10 n.toInt.natAbs) l.precision.isNone

def unsigned (l : Layout) (base : Nat) (capital : Bool) (n : Int64) : List Char :=
  let value := n.toUInt64.toNat
  let ds := l.digits base value
  let ds := if capital then ds.map Char.toUpper else ds
  let mark := if !l.alternative || value = 0 then []
    else if base = 16 then (if capital then ['0', 'X'] else ['0', 'x'])
    else if base = 8 && ds.head? != some '0' then ['0']
    else []
  l.padNumber mark ds l.precision.isNone

def scientific (places : Nat) (x : Float) : List Char :=
  let q := Double.magnitude x
  let d : Digits := if x == 0 then ⟨0, 0⟩ else Digits.ofQuotient .toEven (places + 1) q.num.natAbs q.den
  let ds := Nat.toDigits 10 d.digits
  let ds := List.replicate (places + 1 - ds.length) '0' ++ ds
  ds.take 1 ++ (if places = 0 then [] else '.' :: ds.drop 1) ++ (Double.exponentText d.exponent).toList

def dropZeros (cs : List Char) : List Char :=
  let mantissa := cs.takeWhile (· != 'e')
  let kept := if mantissa.contains '.' then
      match mantissa.reverse.dropWhile (· == '0') with
      | '.' :: rest => rest.reverse
      | rest => rest.reverse
    else mantissa
  kept ++ cs.drop mantissa.length

def real (l : Layout) (form : Char) (x : Float) : List Char :=
  let places := l.precision.getD 6
  let a := x.abs
  let text :=
    if x.isNaN then "nan".toList
    else if x.isInf then "inf".toList
    else match form.toLower with
      | 'f' => (Double.fixed places a).toList
      | 'e' => scientific places a
      | _ =>
        let count := max 1 places
        let q := Double.magnitude a
        let e : Int := if a == 0 then 0
          else (Digits.ofQuotient .toEven count q.num.natAbs q.den).exponent
        let text := if -4 ≤ e && e < count then
            (Double.fixed ((count : Int) - 1 - e).toNat a).toList
          else scientific (count - 1) a
        if l.alternative then text else dropZeros text
  let text := if form.isUpper then text.map Char.toUpper else text
  l.padNumber (l.sign (Double.signBit x && !x.isNaN)) text (!x.isNaN && !x.isInf)

end Layout

/-- What has been printed by a pattern, the words that are left, what was said about some of them,
and how it ended. -/
structure Filling where
  text : List Char := []
  left : List (List Char)
  complaints : List (List Char) := []
  stopped : Bool := false
  fault : Option (List Char) := none

namespace Filling

def print (f : Filling) (cs : List Char) : Filling := { f with text := f.text ++ cs }

def next (f : Filling) : List Char × Filling := (f.left.head?.getD [], { f with left := f.left.drop 1 })

def complain (f : Filling) (word : List Char) (why : String) : Filling :=
  { f with complaints := f.complaints ++ [word ++ (": " ++ why).toList] }

/-- The next word as a number. A quote in front of a character asks for its code. -/
def number (f : Filling) : Int64 × Filling :=
  match f.left with
  | [] => (0, f)
  | _ :: _ =>
    let (word, f) := f.next
    match word with
    | '"' :: c => (Int64.ofNat ((c.head?.map Char.toNat).getD 0), f)
    | '\'' :: c => (Int64.ofNat ((c.head?.map Char.toNat).getD 0), f)
    | word =>
      let trimmed := word.dropWhile (·.isWhitespace)
      let (negative, digits) := match trimmed with
        | '-' :: rest => (true, rest)
        | '+' :: rest => (false, rest)
        | rest => (false, rest)
      if word.isEmpty then (0, f)
      else match Arithmetic.readNumber? digits with
        | some (n, rest) =>
          let f := if !rest.isEmpty then f.complain word "not completely converted"
            else if Arithmetic.isTooLarge digits then f.complain word "Numerical result out of range"
            else f
          (if negative then -n else n, f)
        | none => (0, f.complain word "expected numeric value")

def real (f : Filling) : Float × Filling :=
  match f.left with
  | [] => (0, f)
  | _ :: _ =>
    let (word, f) := f.next
    match Number.real? (String.ofList word) with
    | some x => (x, f)
    | none => (0, f.complain word "expected numeric value")

def place (f : Filling) (l : Layout) (form : Char) : Option Filling :=
  let numeric (write : Int64 → List Char) : Option Filling :=
    let (n, f) := f.number
    some (f.print (write n))
  match form with
  | 'd' => numeric l.signed
  | 'i' => numeric l.signed
  | 'u' => numeric (l.unsigned 10 false)
  | 'o' => numeric (l.unsigned 8 false)
  | 'x' => numeric (l.unsigned 16 false)
  | 'X' => numeric (l.unsigned 16 true)
  | 'c' =>
    let (word, f) := f.next
    some (f.print (l.pad (word.take 1)))
  | 's' =>
    let (word, f) := f.next
    some (f.print (l.pad (match l.precision with
      | some p => word.take p
      | none => word)))
  | 'b' =>
    let (word, f) := f.next
    let (text, goesOn) := unescape (word.length + 1) word
    let f := f.print (l.pad (match l.precision with
      | some p => text.take p
      | none => text))
    some { f with stopped := !goesOn }
  | form =>
    if "eEfFgG".toList.contains form then
      let (x, f) := f.real
      some (f.print (l.real form x))
    else none

end Filling

def readMarks (l : Layout) : List Char → Layout × List Char
  | '-' :: rest => readMarks { l with left := true } rest
  | '0' :: rest => readMarks { l with zeros := true } rest
  | '+' :: rest => readMarks { l with plus := true } rest
  | ' ' :: rest => readMarks { l with blank := true } rest
  | '#' :: rest => readMarks { l with alternative := true } rest
  | rest => (l, rest)

def readWidth (f : Filling) : List Char → Int × Filling × List Char
  | '*' :: rest =>
    let (n, f) := f.number
    (n.toInt, f, rest)
  | cs => (digitsValue (cs.takeWhile Char.isDigit), f, cs.dropWhile Char.isDigit)

def fill : Nat → List Char → Filling → Filling
  | 0, _, f => f
  | _ + 1, [], f => f
  | fuel + 1, '\\' :: rest, f =>
    let (c, rest) := escape rest
    fill fuel rest (f.print [c])
  | fuel + 1, '%' :: '%' :: rest, f => fill fuel rest (f.print ['%'])
  | fuel + 1, '%' :: rest, f =>
    let (l, after) := readMarks {} rest
    let (width, f, after) := readWidth f after
    let l := { l with width := width.natAbs, left := l.left || width < 0 }
    let (l, f, after) := match after with
      | '.' :: after =>
        let (p, f, after) := readWidth f after
        ({ l with precision := if p < 0 then none else some p.toNat }, f, after)
      | after => (l, f, after)
    match after with
    | [] => { f with fault := some ('%' :: rest) }
    | form :: after =>
      match f.place l form with
      | none => { f with fault := some ('%' :: rest.take (rest.length - after.length)) }
      | some f => if f.stopped then f else fill fuel after f
  | fuel + 1, c :: rest, f => fill fuel rest (f.print [c])

def fillAll (pattern : List Char) : Nat → Filling → Filling
  | 0, f => f
  | rounds + 1, f =>
    let g := fill (pattern.length + 1) pattern f
    if g.stopped || g.fault.isSome || g.left.isEmpty || g.left.length = f.left.length then g
    else fillAll pattern rounds g

end Supermartingale.Shell
