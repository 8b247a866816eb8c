import Supermartingale.Number
import Supermartingale.Text.Class

/-!
# Numbers as they are typed

A number that is typed may have blanks around it, a sign, and single underscores between its
digits, which may be those of any script.
-/

namespace Supermartingale.Number

def dropUnderscores? : Option Char → List Char → Option (List Char)
  | _, [] => some []
  | before, '_' :: rest =>
    match before, rest with
    | some b, d :: _ =>
      if b.isDigit && d.isDigit then dropUnderscores? (some '_') rest else none
    | _, _ => none
  | _, c :: rest => (dropUnderscores? (some c) rest).map (c :: ·)

def plainSpelling? (s : String) : Option (List Char) :=
  dropUnderscores? none ((Text.strip s).toList.map Text.plainDigit)

def whole? (s : String) : Option Int := do
  let cs ← plainSpelling? s
  let (negative, digits) := match cs with
    | '-' :: rest => (true, rest)
    | '+' :: rest => (false, rest)
    | rest => (false, rest)
  if digits.isEmpty || !digits.all Char.isDigit || digitLimit < digits.length then none
  else
    let n : Int := digitsValue digits
    some (if negative then -n else n)

def real? (s : String) : Option Float := do
  readDouble? (String.ofList (← plainSpelling? s))

end Supermartingale.Number
