import Supermartingale.Symbolic.Sum

/-!
# Texts of symbolic expressions

The terms of a sum stand by decreasing powers of their factors. In a product numbers come first, then constants,
unknowns and compound factors, and factors with negative exponents stand behind a slash.
-/

namespace Supermartingale.Symbolic

/-- An expression as a whole power of something: fractional exponents are powers of a root, and
symbolic exponents lose their numbers. -/
def decompose (x : Symbolic) : Symbolic × Int :=
  let (b, e) := parts x
  match e with
  | .exact q =>
    if q.den = 1 then (b, q.num) else (pow b (.exact (mkRat 1 q.den)), q.num)
  | .approx _ => (x, 1)
  | .constant c => if c.isNumeric then (x, 1) else (x, 1)
  | e =>
    let (q, rest) := rationalCoefficientOf e
    if q = -1 then (pow b rest, -1)
    else if q = 1 then (x, 1)
    else (pow b (keepCoefficient standard (.exact (mkRat 1 q.den)) rest), q.num)

/-! ## The order of parts in texts -/

def atomText : Symbolic → String
  | .exact q => if q.den = 1 then toString q.num else toString q.num ++ "/" ++ toString q.den
  | .approx a => a.text
  | .constant c => c.text
  | .name s => s
  | _ => ""

def functionRank (f : String) : Nat :=
  match f with
  | "exp" => 10
  | "log" => 11
  | "sin" => 20
  | "cos" => 21
  | "tan" => 22
  | "cot" => 23
  | "sinh" => 30
  | "cosh" => 31
  | "tanh" => 32
  | "coth" => 33
  | "conjugate" => 40
  | "re" => 41
  | "im" => 42
  | "arg" => 43
  | _ => 10000

def kindKey : Symbolic → Nat × Nat × String
  | .exact _ => (1, 0, "Number")
  | .approx _ => (1, 0, "Number")
  | .constant c => if c.isNumeric then (1, 0, "Number") else (2, 0, c.sort)
  | .name _ => (2, 0, "Symbol")
  | .product _ => (3, 0, "Mul")
  | .sum _ => (3, 1, "Add")
  | .power _ _ => (3, 2, "Pow")
  | .apply f _ => (4, functionRank f, f)

def compareKind (a b : Nat × Nat × String) : Ordering :=
  (compare a.1 b.1).then ((compare a.2.1 b.2.1).then (compare a.2.2 b.2.2))

def compareValues (x y : Symbolic) : Ordering :=
  match x, y with
  | .constant .infinity, .constant .infinity => .eq
  | .constant .negInfinity, .constant .negInfinity => .eq
  | .constant .infinity, _ => .gt
  | .constant .negInfinity, _ => .lt
  | _, .constant .infinity => .lt
  | _, .constant .negInfinity => .gt
  | x, y => signOfRat (x.value?.getD 0 - y.value?.getD 0)

def compareLists {α : Type} (f : α → α → Ordering) : List α → List α → Ordering
  | x :: xs, y :: ys => (f x y).then (compareLists f xs ys)
  | [], [] => .eq
  | [], _ :: _ => .lt
  | _ :: _, [] => .gt

def termParts (x : Symbolic) : ComplexDouble × List (Symbolic × Int) :=
  let (c, rest) := coefficientOf x
  let start := (estimate c).getD default
  if rest.isExactOne then (start, [])
  else (factorsOf rest).foldl (fun (z, ps) f =>
    match estimate f with
    | some w => (z.mul w, ps)
    | none => (z, ps ++ [decompose f])) (start, [])

def exponentIn (g : Symbolic) (ps : List (Symbolic × Int)) : Int :=
  ((ps.reverse.find? (fun (h, _) => h.same g)).map (·.2)).getD 0

def compareDoubles (a b : Float) : Ordering :=
  if a < b then .lt else if b < a then .gt else .eq

def compareCoefficients (a b : ComplexDouble) : Ordering :=
  let flag (z : ComplexDouble) : Nat := if z.im == 0 then 0 else 1
  (compare (flag a) (flag b)).then ((compareDoubles a.im b.im).then
    ((compareDoubles a.re b.re).then (compareDoubles a.im b.im)))

def isPlainNumber : Symbolic → Bool
  | .constant .imaginary => false
  | .constant .unbounded => false
  | .constant _ => true
  | x => x.isNumber

/-- The terms of a sum in the order of its text, given a comparison of factors. -/
def orderTerms (key : Symbolic → Symbolic → Ordering) (xs : List Symbolic) : List Symbolic :=
  let numbersFirst := xs.filter isPlainNumber ++ xs.filter (fun x => !isPlainNumber x)
  let spoof := match numbersFirst with
    | [n, .product [c, _]] => isPlainNumber n && isPositive n && c.isNumber && isNegative c
    | _ => false
  if spoof then numbersFirst
  else
    let rows := xs.map (fun x => (x, termParts x))
    let found := rows.flatMap (fun (_, _, ps) => ps.map (·.1))
    let distinct := found.foldl (fun acc g => if acc.any (·.same g) then acc else acc ++ [g]) []
    let generators := Sort.sort (fun g h => key g h != .gt) distinct
    let vectors := rows.map (fun (x, z, ps) => (x, z, generators.map (fun g => -(exponentIn g ps))))
    let order := Sort.sort (fun (_, z, v) (_, w, u) =>
      ((compareLists compare v u).then (compareCoefficients z w)) != .gt) vectors
    order.map (·.1)

/-- Compares two factors as they stand in a text: by kind, by their parts, by exponent, and by the
number in front. -/
def compareKeys : Nat → Symbolic → Symbolic → Ordering
  | 0, _, _ => .eq
  | fuel + 1, x, y =>
    let split (x : Symbolic) : Symbolic × Symbolic × Symbolic :=
      let (c, e) := coefficientOf x
      match e with
      | .power b n => (c, b, n)
      | e => (c, e, one)
    let body (x : Symbolic) : List Symbolic :=
      match x with
      | .sum xs => orderTerms (compareKeys fuel) xs
      | .product xs => Sort.sort (fun x y => compareKeys fuel x y != .gt) xs
      | .apply _ xs => xs
      | .power b n => [b, n]
      | _ => []
    let isAtom (x : Symbolic) : Bool := match x with
      | .sum _ => false
      | .product _ => false
      | .apply _ _ => false
      | .power _ _ => false
      | _ => true
    match x.isNumber, y.isNumber with
    | true, true => compareValues x y
    | true, false =>
      let (_, b, _) := split y
      (compareKind (kindKey x) (kindKey b)).then .lt
    | false, true =>
      let (_, b, _) := split x
      (compareKind (kindKey b) (kindKey y)).then .gt
    | false, false =>
      let (c, b, n) := split x
      let (d, a, m) := split y
      let inner :=
        if isAtom b || isAtom a then compare (atomText b) (atomText a)
        else
          let s := body b
          let t := body a
          (compare s.length t.length).then (compareLists (compareKeys fuel) s t)
      (compareKind (kindKey b) (kindKey a)).then (inner.then
        ((compareKeys fuel n m).then (compareValues c d)))

/-! ## Texts -/

def binding : Symbolic → Nat
  | .exact q => if q < 0 then 40 else if q.den = 1 then 1000 else 50
  | .approx a => if a.value < 0 then 40 else 1000
  | .constant .negInfinity => 40
  | .constant _ => 1000
  | .name _ => 1000
  | .sum _ => 40
  | .product (c :: _) => if c.isNumber && isNegative c then 40 else 50
  | .product [] => 50
  | .power _ _ => 60
  | .apply _ _ => 70

def enclose (level : Nat) (x : Symbolic) (text : String) : String :=
  if binding x ≤ level then "(" ++ text ++ ")" else text

def lowered (x : Symbolic) : Symbolic :=
  let (b, e) := parts x
  let negative := match factorsOf e with
    | .exact q :: rest => if q = -1 then rawProduct rest else rawProduct (.exact (-q) :: rest)
    | c :: rest => rawProduct (negNumber c :: rest)
    | [] => e
  .power b negative

/-- The factors above and below the slash of a product. -/
def fractionParts (xs : List Symbolic) : List Symbolic × List (Symbolic × Bool) :=
  xs.foldl (fun (above, below) x =>
    match x with
    | .power b e =>
      if hasNegativeLead e then
        if e.same minusOne then
          let isCompound := match b with
            | .product _ => true
            | .power _ _ => true
            | _ => false
          (above, below ++ [(b, isCompound)])
        else (above, below ++ [(lowered x, false)])
      else (above ++ [x], below)
    | .exact q =>
      (if q.num = 1 then above else above ++ [.exact q.num],
        if q.den = 1 then below else below ++ [(.exact (q.den : Rat), false)])
    | x => (above ++ [x], below)) ([], [])

def textWithin : Nat → Symbolic → String
  | 0, _ => ""
  | fuel + 1, x =>
    let inner (level : Nat) (y : Symbolic) : String := enclose level y (textWithin fuel y)
    match x with
    | .approx a => a.render true
    | .sum xs =>
      let parts := (orderTerms (compareKeys (fuel + 1)) xs).map (fun y =>
        let t := textWithin fuel y
        match t.toList, y.isSum with
        | '-' :: rest, false => ("-", String.ofList rest)
        | _, _ => ("+", if binding y < 40 || y.isSum then "(" ++ t ++ ")" else t))
      match parts with
      | [] => "0"
      | (s, t) :: rest =>
        (if s == "+" then "" else s) ++ String.intercalate " " (t :: rest.flatMap (fun (s, t) => [s, t]))
    | .product xs =>
      let level := binding x
      let negative := isNegative (coefficientOf x).1
      let body := if negative then neg x else x
      let factors := match body with
        | .product ys => Sort.sort (fun y z => compareKeys (fuel + 1) y z != .gt) ys
        | y => [y]
      let (above, below) := fractionParts factors
      let top := match above with
        | [] => "1"
        | ys => String.intercalate "*" (ys.map (inner level))
      let bottom := below.map (fun (y, compound) =>
        let t := inner level y
        if compound then "(" ++ t ++ ")" else t)
      let sign := if negative then "-" else ""
      if xs.isEmpty then "1"
      else if below.all (fun (y, _) => y.isNumber) then
        sign ++ top ++ String.join (bottom.map ("/" ++ ·))
      else match bottom with
        | [s] => sign ++ top ++ "/" ++ s
        | ss => sign ++ top ++ "/(" ++ String.intercalate "*" ss ++ ")"
    | .power b e =>
      if e.same half then "sqrt(" ++ textWithin fuel b ++ ")"
      else if e.same (.exact (-1 / 2)) then "1/sqrt(" ++ textWithin fuel b ++ ")"
      else if e.same minusOne then "1/" ++ inner 60 b
      else inner 60 b ++ "**" ++ inner 60 e
    | .apply f xs => f ++ "(" ++ String.intercalate ", " (xs.map (textWithin fuel)) ++ ")"
    | x => atomText x

/-- The text of an expression. A lone approximation is written with all its digits. -/
def text (x : Symbolic) : String :=
  match x with
  | .approx a => a.text
  | x => textWithin (2 * size x + 8) x

end Supermartingale.Symbolic
