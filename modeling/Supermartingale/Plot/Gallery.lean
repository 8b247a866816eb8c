import Supermartingale.Dynamics
import Supermartingale.Plot.Figure

/-!
# A gallery

Figures of known systems, with the values that they show.
-/

namespace Supermartingale.Plot

/-! ## Fields of known systems -/

abbrev Values := List Float

/-- A value for every point, from its two coordinates. An axis of one value goes with any other. -/
def pointwise (f : Float → Float → Float) (xs ys : Values) : Except Error Values :=
  match Quantity.zipArrays f xs ys with
  | .ok (.array zs) => .ok zs
  | .ok _ => .ok []
  | .error e => .error e

def bilinear (xs ys : Values) : Except Error (Values × Values) := do
  return (← pointwise (fun x y => x + 0.01 * (-0.5 * x - 0.5 * y + 0.5 * x * y)) xs ys,
    ys.map (fun y => y + 0.01 * (1.0 - 0.5 * y)))

def predatorPrey (xs ys : Values) : Except Error (Values × Values) := do
  return (← pointwise (fun x y => 0.5 * x - x * y) xs ys, ← pointwise (fun x y => -0.5 * y + x * y) xs ys)

def safeLinear (xs ys : Values) : Values × Values := (xs.map (fun x => 0.1 * x), ys.map (fun y => 0.1 * y))

def spiral (xs ys : Values) : Except Error (Values × Values) := do
  return (← pointwise (fun x y => 0.9 * x - 0.4 * y) xs ys, ← pointwise (fun x y => 0.4 * x + 0.9 * y) xs ys)

def steppedSpiral (tau : Float) (xs ys : Values) : Except Error (Values × Values) := do
  return (← pointwise (fun x y => x + (1.0 * x + -2.0 * y) * tau) xs ys,
    ← pointwise (fun x y => y + (1.0 * x + -1.0 * y) * tau) xs ys)

def usualStep : Float := 0.05

def temperature (outside alpha beta x : Float) : Float := x - (1.0 / 100.0) * (x - outside) + (alpha * x + beta)

def aroundObstacle (x y xx yy : Float) : Float × Float :=
  if xx + yy >= 91.0 then (-0.1 * x, -0.1 * y)
  else (0.2 * x - 0.3 * y + 0.5, 0.5 * x - 0.5 * y + 0.5)

def square (x : Float) : Except Error Float := do
  match ← liftFault ((Number.double x).pow 2) with
  | .double y => return y
  | .int _ => throw .misapplied

def obstacle (points : List (Float × Float)) : Except Error (List (Float × Float)) :=
  points.mapM (fun (x, y) => do return aroundObstacle x y (← square x) (← square y))

def obstacleOn (g : Grid) : List (Float × Float) :=
  g.points.map (fun (x, y) => aroundObstacle x y (Float.pow x 2.0) (Float.pow y 2.0))

/-! ## Flows -/

def region (sides : List (List Number)) : Except Error Rectangle := do
  let side (i : Nat) : Except Error (Number × Number) :=
    match sides[i]? with
    | none => .error .missingPosition
    | some [low, high] => .ok (low, high)
    | some xs => .error (.notAPair xs.length)
  let (left, right) ← side 0
  let (bottom, top) ← side 1
  let double (n : Number) : Except Error Float := liftFault n.toDouble
  return {
    x := ← double left
    y := ← double bottom
    width := ← double (← liftFault (right.sub left))
    height := ← double (← liftFault (top.sub bottom)) }

def streamFigure (low high : Float) (s : Stream) : Figure where
  xLabel := "S1"
  yLabel := "S2"
  xLimits := some (viewLimits low high)
  yLimits := some (viewLimits low high)
  stream := some s

def titleOf (low high : Number) : String :=
  "Streamlines of the System (Boundaries: " ++ low.text ++ " to " ++ high.text ++ ")"

def usualCount : Int := 50

def system (texts : List String) (low high : Number) (count : Int := usualCount)
    (regions : List (List (List Number)) := []) (titled : Bool := true) : Except Error Figure := do
  let s ← Flow.read texts
  let a ← liftFault low.toDouble
  let b ← liftFault high.toDouble
  let g ← Grid.square a b count
  let (u, v) ← s.values (.array g.across) (.array g.upward)
  let (u, v) ← normalise s.shared u v
  let drawn ← stream g u v
  let rectangles ← regions.mapM region
  return { streamFigure a b drawn with title := if titled then titleOf low high else "", rectangles }

def obstacleSystem (low high : Number) (count : Int := usualCount) : Except Error Figure := do
  let a ← liftFault low.toDouble
  let b ← liftFault high.toDouble
  let g ← Grid.square a b count
  let field := obstacleOn g
  let (u, v) ← normalise false (.array (field.map (·.1))) (.array (field.map (·.2)))
  return streamFigure a b (← stream g u v)

inductive Answer where
  | complaint (text : String)
  | figure (f : Figure)

def ofPieces (pieces : List Piece) : Except Error Answer :=
  match pieces with
  | [p] =>
    match p.transforms with
    | [f, g] => do
      return .figure (← system [f.text ++ "-S1", g.text ++ "-S2"] (.int (-5)) (.int 5) usualCount []
        false)
    | _ => .ok (.complaint "Only two dimensional dynamics are supported for plotting.")
  | _ => .ok (.complaint "Only one conditional equation is supported for plotting.")

/-! ## Figures -/

structure Exhibit where
  figure : Figure
  xs : List Float := []
  ys : List Float := []
  next : List Float := []
  u : List (List Float) := []
  v : List (List Float) := []

namespace Exhibit

def ofField (figure : Figure) (step : Values → Values → Except Error (Values × Values)) :
    Except Error Exhibit := do
  let g ← Grid.square (-3.0) 3.0 25
  let (xs, ys) ← step g.across g.upward
  return {
    figure
    xs := g.xs
    ys := g.ys
    u := g.rows (List.zipWith (· - ·) xs g.across)
    v := g.rows (List.zipWith (· - ·) ys g.upward) }

def fieldFigure (title : String) : Figure where
  title := title
  xLabel := "X"
  yLabel := "Y"
  xLimits := some (-3.0, 3.0)
  yLimits := some (-3.0, 3.0)

def shrinking : Except Error Exhibit :=
  ofField (fieldFigure "Vector Field of the System") (fun xs ys => .ok (safeLinear xs ys))

def turning : Except Error Exhibit :=
  ofField { fieldFigure "Vector Field of the Spiraling System with Buchi Sets" with
    legend := ["Quadrant 1 (Buchi Set)", "Quadrant 3 (Buchi Set)"] } (steppedSpiral usualStep)

def room : Except Error Exhibit := do
  let xs ← axis 280.0 320.0 100
  return {
    figure := {
      title := "Visualization of Updated Dynamics with Specification and Arrows"
      xLabel := "State $S1$"
      yLabel := "Next State $S1'$"
      legend := [
        "Dynamics: $X_\x7bt+1\x7d = X_t - \\frac\x7b1\x7d\x7b100\x7d(X_t - t_\x7bext\x7d) + " ++
          "(\\alpha X_t + \\beta)$",
        "Boundary: $a$ ($S1 \\geq 298$)",
        "Boundary: $b$ ($S1 \\leq 292$)",
        "Violation Region (!a & !b)"] }
    xs
    next := xs.map (temperature 300.0 (-1.0 / 32.0) (4787.0 / 512.0)) }

def circles : Exhibit where
  figure := {
    title := "Visualization of the safe linear system"
    xLabel := "S1"
    yLabel := "S2"
    xLimits := some (-11.0, 11.0)
    yLimits := some (-11.0, 11.0)
    legend := ["System Space", "Unsafe Space", "Initial Space", "Target Space"]
    circles := [10.01, 10.0, 10.0, 9.0, Float.sqrt 25.0, Float.sqrt 16.0, 4.0].map
      (fun r => ⟨0.0, 0.0, r⟩) }

def oscillator : Except Error Exhibit := do
  return { figure := ← system ["0.1 * S2", "(-S1 + (1 - S1 ** 2) * S2) * 0.1"] (.int (-10)) (.int 10) }

def turnedBack : Except Error Exhibit := do
  return { figure := ← obstacleSystem (.int (-10)) (.int 10) }

end Exhibit

end Supermartingale.Plot
