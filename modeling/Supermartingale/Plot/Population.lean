import Supermartingale.Plot.Figure

/-!
# Prey and predators

Two populations over time. The numbers of a step follow from those of the step before, with noise
on each, and are cut off below zero.
-/

namespace Supermartingale.Plot.Population

def alpha : Float := 2.0

def beta : Float := 0.04

def gamma : Float := 1.06

def delta : Float := 0.02

def tau : Float := 0.1

def steps : Nat := 200

def spread : Float := 0.1

def fixedPoint : Float × Float := (gamma / delta, alpha / beta)

/-- A number that is cut off below zero; what cannot be compared with zero is kept. -/
def cutOff (x : Float) : Float := if 0.0 > x then 0.0 else x

def step (noise now : Float × Float) : Float × Float :=
  let (p, q) := now
  (cutOff ((1.0 + alpha * tau) * p - beta * tau * p * q + noise.1),
    cutOff ((1.0 - gamma * tau) * q + delta * tau * p * q + noise.2))

def follow (noise : Nat → Float × Float) : Nat → Nat → Float × Float → List (Float × Float)
  | 0, _, _ => []
  | left + 1, n, now =>
    let next := step (noise n) now
    next :: follow noise left (n + 1) next

def simulate (noise : Nat → Float × Float) : List (Float × Float) :=
  let (p, q) := fixedPoint
  let start := (p + (noise 0).1, q + (noise 0).2)
  start :: follow noise (steps - 1) 1 start

def noiseOf (draw : Nat → Float) (n : Nat) : Float × Float := (draw (2 * n), draw (2 * n + 1))

def draws : Nat := 2 * steps

def figure : Figure where
  title := "Synchronization Towards Non-Trivial Fixed Point (stochastic: True)"
  xLabel := "Time Steps"
  yLabel := "Population Density"
  legend := ["Prey Population (X)", "Predator Population (Y)", "Fixed Point (Prey)", "Fixed Point (Predator)"]

end Supermartingale.Plot.Population
