import Supermartingale.Error
import Supermartingale.Polynomial.Expression
import Supermartingale.Symbolic.Expand
import Supermartingale.Symbolic.Names

/-!
# Evaluation of expressions

An arithmetic expression is evaluated to a symbolic one. Names are unknowns unless they have a
meaning of their own.
-/

namespace Supermartingale

inductive Evaluated where
  | form (x : Symbolic)
  | truth (b : Bool)
  | whole (n : Int)
  | relation
  | kind (s : String)
  | function (s : String)
  | foreign

namespace Evaluated

def ofName (s : String) : Evaluated :=
  if s == "True" then .truth true
  else if s == "False" then .truth false
  else if s == "None" then .foreign
  else match Symbolic.meaningOf s with
    | .unknown => .form (.name s)
    | .constant c => .form (.constant c)
    | .expressionKind => .kind s
    | .other => .function s

def truthValue (b : Bool) : Int := if b then 1 else 0

def plain? : Evaluated → Option Int
  | .truth b => some (truthValue b)
  | .whole n => some n
  | _ => none

/-- Combines two values, by a rule for expressions and a rule for whole numbers; the second rule
may also take a truth value beside an integer. -/
def combine (onForms : Symbolic → Symbolic → Symbolic) (onWholes : Option (Int → Int → Int))
    (a b : Evaluated) : Except Error Evaluated :=
  match a, b with
  | .form x, .form y => .ok (.form (onForms x y))
  | .whole n, .form y => .ok (.form (onForms (.exact n) y))
  | .form x, .whole n => .ok (.form (onForms x (.exact n)))
  | .truth t, .form y =>
    match onWholes, y.integer? with
    | some f, some n => .ok (.form (.exact (f (truthValue t) n)))
    | _, _ => .error .misapplied
  | .form x, .truth t =>
    match onWholes, x.integer? with
    | some f, some n => .ok (.form (.exact (f n (truthValue t))))
    | _, _ => .error .misapplied
  | a, b =>
    match a.plain?, b.plain? with
    | some m, some n => match onWholes with
      | some f => .ok (.whole (f m n))
      | none => .ok .foreign
    | _, _ => .error .misapplied

def neg : Evaluated → Except Error Evaluated
  | .form x => .ok (.form x.neg)
  | .truth b => .ok (.whole (-(truthValue b)))
  | .whole n => .ok (.whole (-n))
  | _ => .error .misapplied

def pos : Evaluated → Except Error Evaluated
  | .form x => .ok (.form x)
  | .truth b => .ok (.whole (truthValue b))
  | .whole n => .ok (.whole n)
  | _ => .error .misapplied

def compare : Evaluated → Evaluated → Except Error Evaluated
  | .form x, .form y =>
    match x.isConstant, y.isConstant with
    | true, true =>
      if Symbolic.isReal? x == some false || Symbolic.isReal? y == some false then
        .error .misapplied
      else .ok .foreign
    | _, _ => .ok .relation
  | .form x, .whole _ => .ok (if x.isConstant then .foreign else .relation)
  | .whole _, .form y => .ok (if y.isConstant then .foreign else .relation)
  | a, b =>
    match a.plain?, b.plain? with
    | some _, some _ => .ok .foreign
    | _, _ => .error .misapplied

def quotient (x y : Symbolic) : Except Error Symbolic :=
  match x.value?, y.value? with
  | some p, some q =>
    if q = 0 then .error .zeroDivisor else .ok (.exact ((p / q).floor : Int))
  | _, _ => .ok (.apply "floor" [x.div y])

def remainder (x y : Symbolic) : Except Error Symbolic :=
  match x, y with
  | .exact p, .exact q =>
    if q = 0 then .error .zeroDivisor
    else .ok (.exact (p - q * ((p / q).floor : Int)))
  | x, y =>
    match x.value?, y.value? with
    | some p, some q =>
      if q = 0 then .error .zeroDivisor
      else
        let precision := ((Symbolic.widestOf [x, y]).getD Approx.standard)
        .ok (Symbolic.settled (.ofRat precision (p - q * ((p / q).floor : Int))))
    | _, some q => if q = 0 then .error .zeroDivisor else .ok (.apply "Mod" [x, y])
    | _, _ => .ok (.apply "Mod" [x, y])

def extreme (f : String) (largest : Bool) (xs : List Symbolic) : Symbolic :=
  let better (a b : Symbolic) : Symbolic :=
    match a.value?, b.value? with
    | some p, some q => if (p < q) == largest then b else a
    | _, _ => a
  match xs with
  | [] => if largest then Symbolic.negInfinity else Symbolic.infinity
  | x :: rest =>
    if xs.all (fun y => y.value?.isSome) then rest.foldl better x else .apply f xs

def applied (f : String) (xs : List Symbolic) : Except Error Evaluated :=
  let form (x : Symbolic) : Except Error Evaluated := .ok (.form x)
  match f, xs with
  | "sqrt", [x] => form (x.pow Symbolic.half)
  | "cbrt", [x] => form (x.pow (.exact (1 / 3)))
  | "root", [x, n] => form (x.pow (n.pow Symbolic.minusOne))
  | "abs", [x] => form x.abs
  | "Abs", [x] => form x.abs
  | "exp", [x] => form (Symbolic.exponential Symbolic.standard x)
  | "Pow", [x, y] => form (x.pow y)
  | "pow", [x, y] => form (x.pow y)
  | "Add", xs => form (Symbolic.addAll xs)
  | "Mul", xs => form (Symbolic.mulAll xs)
  | "S", [x] => form x
  | "sympify", [x] => form x
  | "expand", [x] => form x.expand
  | "Rational", [x] => form x
  | "Rational", [x, y] => form (x.div y)
  | "Mod", [x, y] => do return .form (← remainder x y)
  | "Max", xs => form (extreme "Max" true xs)
  | "max", xs => form (extreme "Max" true xs)
  | "Min", xs => form (extreme "Min" false xs)
  | "min", xs => form (extreme "Min" false xs)
  | "floor", [x] =>
    form (match x.value? with
      | some q => .exact (q.floor : Int)
      | none => .apply "floor" [x])
  | "ceiling", [x] =>
    form (match x.value? with
      | some q => .exact (-((-q).floor) : Int)
      | none => .apply "ceiling" [x])
  | "factorial", [x] =>
    form (match x.integer? with
      | some (.ofNat n) => .exact (Symbolic.factorial n : Rat)
      | some (.negSucc _) => Symbolic.unbounded
      | none => .apply "factorial" [x])
  | "binomial", [x, y] =>
    form (match x.integer?, y.integer? with
      | some (.ofNat n), some (.ofNat k) =>
        .exact ((if n < k then 0
          else Symbolic.factorial n / (Symbolic.factorial k * Symbolic.factorial (n - k)) : Nat) : Rat)
      | _, _ => .apply "binomial" [x, y])
  | "gamma", [x] =>
    form (match x.integer? with
      | some (.ofNat (n + 1)) => .exact (Symbolic.factorial n : Rat)
      | some _ => Symbolic.unbounded
      | none => .apply "gamma" [x])
  | f, xs =>
    match Symbolic.elementary.lookup f, xs, Symbolic.meaningOf f with
    | some g, [x], _ => form (g x)
    | _, xs, .unknown => form (.apply f xs)
    | _, xs, .expressionKind => form (.apply f xs)
    | _, _, _ => .ok .foreign

def forms : List Evaluated → Except Error (List Symbolic)
  | [] => .ok []
  | .form x :: rest => do return x :: (← forms rest)
  | .whole n :: rest => do return .exact n :: (← forms rest)
  | _ :: _ => .error .misapplied

def isTooLong (x : Numeral) : Bool := !x.pointed && x.value.den = 1 && !isWritable x.value.num.natAbs

/-- What an expression is by itself, and what it is as the arguments of an application. -/
structure Reading where
  value : Except Error Evaluated
  arguments : Except Error (List Evaluated)

def Reading.single (value : Except Error Evaluated) : Reading := ⟨value, do return [← value]⟩

def bothThen (l r : Reading) (result : Except Error Evaluated) : Reading :=
  .single (do
    let _ ← l.value
    let _ ← r.value
    result)

def reading : Expression → Reading
  | .whole n => .single (.ok (.form (.exact (n : Rat))))
  | .decimal x => .single
    (if isTooLong x then .error .numeralTooLong else .ok (.form (.approx (.ofNumeral x))))
  | .name s => .single (.ok (ofName s))
  | .pos e => .single (do (← (reading e).value).pos)
  | .neg e => .single (do (← (reading e).value).neg)
  | .add l r => .single (do combine Symbolic.add (some (· + ·)) (← (reading l).value) (← (reading r).value))
  | .sub l r => .single (do combine Symbolic.sub (some (· - ·)) (← (reading l).value) (← (reading r).value))
  | .mul l r => .single (do combine Symbolic.mul (some (· * ·)) (← (reading l).value) (← (reading r).value))
  | .div l r => .single (do combine Symbolic.div none (← (reading l).value) (← (reading r).value))
  | .quotient l r => .single (do
    match ← (reading l).value, ← (reading r).value with
    | .form x, .form y => return .form (← quotient x y)
    | _, _ => throw .misapplied)
  | .remainder l r => .single (do
    match ← (reading l).value, ← (reading r).value with
    | .form x, .form y => return .form (← remainder x y)
    | _, _ => throw .misapplied)
  | .pow l r => .single (do combine Symbolic.pow none (← (reading l).value) (← (reading r).value))
  | .matrixMul l r => bothThen (reading l) (reading r) (.error .misapplied)
  | .xor l r => bothThen (reading l) (reading r) (.error .misapplied)
  | .relation l r => .single (do compare (← (reading l).value) (← (reading r).value))
  | .equality l r => bothThen (reading l) (reading r) (.ok .foreign)
  | .apply f x =>
    let arguments := (reading x).arguments
    let function := reading f
    .single (match f with
      | .name f => do
        let xs ← arguments
        if Token.literals.contains f || Symbolic.namedConstants.any (·.1 == f) then
          throw .misapplied
        else applied f (← forms xs)
      | _ => do
        let _ ← function.value
        let _ ← arguments
        throw .misapplied)
  | .sequence l r =>
    let first := (reading l).value
    let others := reading r
    ⟨do
      let _ ← first
      let _ ← others.value
      return .foreign,
    match r with
      | .foreign => do return [← first]
      | _ => do return (← first) :: (← others.arguments)⟩
  | .member e => .single (do
    let _ ← (reading e).value
    throw .notPolynomial)
  | .entry e => .single (do
    let _ ← (reading e).value
    throw .misapplied)
  | .foreign => ⟨.ok .foreign, .ok []⟩

def ofExpression (e : Expression) : Except Error Evaluated := (reading e).value

def ofText (s : String) : Except Error Symbolic :=
  match Expression.read s with
  | none => .error .malformedExpression
  | some e => do
    match ← ofExpression e with
    | .form x => return x
    | .relation => throw .comparisonGiven
    | .kind _ => throw .misapplied
    | _ => throw .notPolynomial

end Evaluated

end Supermartingale
