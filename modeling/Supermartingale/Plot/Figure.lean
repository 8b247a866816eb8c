import Supermartingale.Plot.Quantity
import Supermartingale.Polynomial.Expression
import Supermartingale.Text.Replace

/-!
# Figures

What is handed to whoever draws: texts, limits, shapes, and the field of a plane system on a grid.
A field is normalised before it is drawn, so that only its direction counts.
-/

namespace Supermartingale.Plot

/-! ## Formulas -/

abbrev Formula := Option Expression

namespace Formula

def read (s : String) : Except Error Formula :=
  match Token.scan "^" (Text.replaceAll "\n" " " s) with
  | none => .error .notAnExpression
  | some [] => .ok none
  | some ts =>
    if ts.contains (.mark "!") then .error .notAnExpression
    else match Expression.readAll (ts.length + 1) ts with
      | some e => .ok (some e)
      | none => .error .notAnExpression

def functions : List (String × (Quantity → Except Error Quantity)) := [("abs", Quantity.abs), ("sqrt", Quantity.sqrt)]

def compute (x y : Quantity) : Expression → Except Error Quantity
  | .whole n => .ok (.whole n)
  | .decimal d => .ok (.plain (Number.nearestDouble d.value))
  | .name s =>
    if s == "S1" then .ok x
    else if s == "S2" then .ok y
    else if functions.any (·.1 == s) then .error .misapplied
    else .error (.unboundName s)
  | .neg e => do (← compute x y e).neg
  | .pos e => do
    match ← compute x y e with
    | .nothing => throw .misapplied
    | q => return q
  | .add l r => do (← compute x y l).add (← compute x y r)
  | .sub l r => do (← compute x y l).sub (← compute x y r)
  | .mul l r => do (← compute x y l).mul (← compute x y r)
  | .div l r => do (← compute x y l).div (← compute x y r)
  | .quotient l r => do (← compute x y l).quotient (← compute x y r)
  | .remainder l r => do (← compute x y l).remainder (← compute x y r)
  | .pow l r => do (← compute x y l).pow (← compute x y r)
  | .xor l r => do (← compute x y l).xor (← compute x y r)
  | .matrixMul l r => do
    let _ ← compute x y l
    let _ ← compute x y r
    throw .misapplied
  | .apply f e => do
    match f with
    | .name s =>
      match functions.find? (·.1 == s) with
      | some (_, g) => g (← compute x y e)
      | none =>
        let _ ← compute x y (.name s)
        let _ ← compute x y e
        throw .misapplied
    | f =>
      let _ ← compute x y f
      let _ ← compute x y e
      throw .misapplied
  | .member e => do
    let _ ← compute x y e
    throw .absentPart
  | .entry e => do
    let _ ← compute x y e
    throw .misapplied
  | .sequence l r => do
    let _ ← compute x y l
    let _ ← compute x y r
    throw .misapplied
  | .relation l r => do
    let _ ← compute x y l
    let _ ← compute x y r
    throw .misapplied
  | .equality l r => do
    let _ ← compute x y l
    let _ ← compute x y r
    throw .misapplied
  | .foreign => .error .misapplied

def value (x y : Quantity) : Formula → Except Error Quantity
  | none => .ok .nothing
  | some e => compute x y e

/-- Whether two formulas are one and the same variable, so that they give one and the same array. -/
def share (f g : Formula) : Bool :=
  match f, g with
  | some (.name s), some (.name t) => s == t
  | _, _ => false

end Formula

structure Flow where
  formulas : List Formula

namespace Flow

/-- Reads a system; every formula has to be one, also those that are not needed. -/
def read (texts : List String) : Except Error Flow := do
  return ⟨← texts.mapM Formula.read⟩

def values (s : Flow) (x y : Quantity) : Except Error (Quantity × Quantity) :=
  match s.formulas with
  | [] => .error .missingPosition
  | [f] => do
    let _ ← Formula.value x y f
    throw .missingPosition
  | f :: g :: _ => do return (← Formula.value x y f, ← Formula.value x y g)

def shared (s : Flow) : Bool :=
  match s.formulas with
  | f :: g :: _ => Formula.share f g
  | _ => false

end Flow

/-! ## Figures -/

/-- A grid with a direction at every point. Rows go up, the entries of a row go right. -/
structure Stream where
  xs : List Float
  ys : List Float
  u : List (List Float)
  v : List (List Float)

structure Circle where
  x : Float
  y : Float
  radius : Float

structure Rectangle where
  x : Float
  y : Float
  width : Float
  height : Float

structure Figure where
  title : String := ""
  xLabel : String
  yLabel : String
  xLimits : Option (Float × Float) := none
  yLimits : Option (Float × Float) := none
  legend : List String := []
  circles : List Circle := []
  rectangles : List Rectangle := []
  stream : Option Stream := none

/-! ## Grids -/

def axis (low high : Float) (count : Int) : Except Error (List Float) :=
  match count with
  | .negSucc _ => .error .negativeSize
  | .ofNat n =>
    let delta := high - low
    if n ≤ 1 then .ok ((List.range n).map (fun i => Float.ofNat i * delta + low))
    else
      let parts := Float.ofNat (n - 1)
      let step := delta / parts
      let inner := (List.range (n - 1)).map (fun i =>
        let i := Float.ofNat i
        (if step == 0 then i / parts * delta else i * step) + low)
      .ok (inner ++ [high])

structure Grid where
  xs : List Float
  ys : List Float

namespace Grid

def square (low high : Float) (count : Int) : Except Error Grid := do
  let points ← axis low high count
  return ⟨points, points⟩

def points (g : Grid) : List (Float × Float) := g.ys.flatMap (fun y => g.xs.map (fun x => (x, y)))

def across (g : Grid) : List Float := g.points.map (·.1)

def upward (g : Grid) : List Float := g.points.map (·.2)

def cut (length : Nat) : Nat → List Float → List (List Float)
  | 0, _ => []
  | n + 1, xs => xs.take length :: cut length n (xs.drop length)

def rows (g : Grid) (values : List Float) : List (List Float) := cut g.xs.length g.ys.length values

end Grid

/-- Limits that can be drawn. -/
def viewLimits (low high : Float) : Float × Float :=
  let margin := 0.05
  let tiny := 1e-15
  let size := if low.abs < high.abs then high.abs else low.abs
  if size < 1e6 / tiny * 2.2250738585072014e-308 then (-margin, margin)
  else if high - low <= size * tiny then (low - margin * low.abs, high + margin * high.abs)
  else (low, high)

/-! ## Fields -/

def guard : Float := 1e-5

/-- A field divided by its length. -/
def normalise (shared : Bool) (u v : Quantity) : Except Error (Quantity × Quantity) := do
  let two := Quantity.whole 2
  let length ← (← (← u.pow two).add (← v.pow two)).sqrt
  let divisor ← length.add (.plain guard)
  let once ← u.divInPlace divisor
  if shared then
    let twice ← once.divInPlace divisor
    return (twice, twice)
  return (once, ← v.divInPlace divisor)

def increases : List Float → Bool
  | x :: y :: rest => y - x > 0 && increases (y :: rest)
  | _ => true

/-- A stream on a grid. -/
def stream (g : Grid) (u v : Quantity) : Except Error Stream := do
  if !increases g.xs || !increases g.ys then throw .axisNotIncreasing
  if g.xs.length < 2 || g.ys.length < 2 then throw .missingPosition
  let size := g.xs.length * g.ys.length
  match u, v with
  | .array us, .array vs =>
    if us.length = size && vs.length = size then return ⟨g.xs, g.ys, g.rows us, g.rows vs⟩
    else throw .shapesDiffer
  | u, v => throw (if u.isComplex || v.isComplex then .misapplied else .shapesDiffer)

end Supermartingale.Plot
