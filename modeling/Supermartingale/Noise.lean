import Supermartingale.Text.Substitution
import Supermartingale.Value

/-!
# Noise

The disturbance of a system is a vector of independent random variables, all normal or all uniform.
A certificate needs the expectations of their powers and, for uniform noise, the bounds of their
values.
-/

namespace Supermartingale

/-- A vector of independent random variables of one kind, with a member of every parameter for each
of them. -/
inductive Distribution where
  | normal (mean deviation : Value)
  | uniform (lower upper : Value)

namespace Distribution

def names : List String := ["normal", "uniform"]

/-! ## Moments -/

def choose : Nat → Nat → Nat
  | _, 0 => 1
  | 0, _ + 1 => 0
  | n + 1, k + 1 => choose n k + choose n (k + 1)

def oddProduct : Nat → Nat
  | 0 => 1
  | k + 1 => (2 * k + 1) * oddProduct k

/-- The terms of the `n`-th moment of a normal variable: a coefficient, a power of the mean and a
power of the deviation each. -/
def momentTerms (n : Nat) : List (Nat × Nat × Nat) :=
  (List.range (n / 2 + 1)).map (fun k => (choose n (2 * k) * oddProduct k, n - 2 * k, 2 * k))

/-- The value of a term of a moment, multiplied from the left. A factor with power zero is left
out. -/
def termValue (mean deviation : Number) (term : Nat × Nat × Nat) : Except Number.Fault Number := do
  let (coefficient, a, b) := term
  let start := Number.int (Int.ofNat coefficient)
  let left ← if a = 0 then pure start else start.mul (← mean.pow a)
  if b = 0 then pure left else left.mul (← deviation.pow b)

/-- The `n`-th moment of a normal variable; the first is its mean as it is given. -/
def normalMoment (mean deviation : Number) (n : Nat) : Except Number.Fault Number :=
  if n = 1 then .ok mean
  else match momentTerms n with
    | [] => .ok (.int 0)
    | t :: ts => do
      let first ← termValue mean deviation t
      ts.foldlM (fun acc t => do acc.add (← termValue mean deviation t)) first

def normalMomentOf (mean deviation : Value) (n : Nat) : Except Error Value :=
  if n = 1 then .ok mean
  else do
    let m ← mean.toNumber
    let _ ← liftFault (m.pow n)
    return .number (← liftFault (normalMoment m (← deviation.toNumber) n))

def uniformMean (a b : Number) : Except Number.Fault Number := do
  (← a.add b).div (.int 2)

def uniformSquare (a b : Number) : Except Number.Fault Number := do
  let sum ← (← a.pow 2).add (← a.mul b)
  (← sum.add (← b.pow 2)).div (.int 3)

end Distribution

structure Noise where
  dimension : Value
  distribution : Distribution

namespace Noise

def variableName (i : Nat) : String := "D" ++ toString (i + 1)

def highestOrder : Distribution → Nat
  | .normal _ _ => 10
  | .uniform _ _ => 2

def normalRow (order : Nat) (mean deviation : Value) (i : Nat) : Except Error (List String) :=
  (List.range order).mapM (fun k => do
    let m ← mean.entry i
    return (← Distribution.normalMomentOf m (← deviation.entry i) (k + 1)).toText)

def uniformRow (order : Int) (lower upper : Value) (i : Nat) : Except Error Text.Table := do
  let name := variableName i
  let a ← lower.entry i
  let b ← upper.entry i
  let a ← a.toNumber
  let b ← b.toNumber
  let mean ← liftFault (Distribution.uniformMean a b)
  let firsts := [(name, mean.text), (name ++ "**1", mean.text)]
  if 2 ≤ order then
    let square ← liftFault (Distribution.uniformSquare a b)
    return firsts ++ [(name ++ "**2", square.text)]
  else return firsts

def expectations (noise : Noise) (order : Int) : Except Error Text.Table := do
  match noise.distribution with
  | .normal mean deviation =>
    if 10 < order then throw (.orderTooHigh 10 "normal")
    let n ← noise.dimension.count
    let rows ← (List.range n).mapM (normalRow order.toNat mean deviation)
    let powers := (rows.mapIdx (fun i row =>
      row.mapIdx (fun k text => (variableName i ++ "**" ++ toString (k + 1), text)))).flatten
    let firsts ← (rows.mapIdx (fun i row => (variableName i, row))).mapM (fun (name, row) =>
      match row with
      | text :: _ => pure (name, text)
      | [] => throw Error.missingPosition)
    return powers ++ firsts
  | .uniform lower upper =>
    if 2 < order then throw (.orderTooHigh 2 "uniform")
    let n ← noise.dimension.count
    return (← (List.range n).mapM (uniformRow order lower upper)).flatten

def usualOrder : Int := 2

/-- The least and the greatest value of every disturbance variable, where they are known. -/
def bounds (noise : Noise) : Except Error (List (String × String × String)) :=
  match noise.distribution with
  | .normal _ _ => .ok []
  | .uniform lower upper => do
    (List.range (← noise.dimension.count)).mapM (fun i => do
      let a ← lower.entry i
      return (variableName i, a.toText, (← upper.entry i).toText))

def twoParameters (parameters : Value) (first second : String) : Except Error (Value × Value) := do
  let fields ← parameters.fields
  match Value.find? fields first, Value.find? fields second with
  | some a, some b => if fields.length = 2 then return (a, b) else throw .misapplied
  | _, _ => throw .misapplied

def checkLength (name : String) (v dimension : Value) : Except Error Unit := do
  let n ← v.length
  if dimension.isInt n then return ()
  else throw (.dimensionMismatch name n dimension.toText)

/-- Whether some lower bound is not below the upper bound of the same variable; the bounds are
looked at one after the other. -/
def outOfOrder : List (Value × Value) → Except Error Bool
  | [] => .ok false
  | (a, b) :: rest => do if ← a.atLeast b then return true else outOfOrder rest

def make (dimension name parameters : Value) : Except Error Noise := do
  if name.isText "normal" then
    let (mean, deviation) ← twoParameters parameters "mean" "std_dev"
    checkLength "mean" mean dimension
    checkLength "standard deviation" deviation dimension
    return ⟨dimension, .normal mean deviation⟩
  else if name.isText "uniform" then
    let (lower, upper) ← twoParameters parameters "lower_bound" "upper_bound"
    checkLength "lower_bound" lower dimension
    checkLength "upper_bound" upper dimension
    if ← outOfOrder ((← lower.members).zip (← upper.members)) then throw .boundsOutOfOrder
    return ⟨dimension, .uniform lower upper⟩
  else throw (.unknownDistribution name.toText (Text.quotedList Distribution.names))

end Noise

end Supermartingale
