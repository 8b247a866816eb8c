import Supermartingale.Value

/-!
# State and action vectors

A vector of concrete values, with the name of the space it belongs to.
-/

namespace Supermartingale

inductive PointKind where
  | state
  | action
deriving DecidableEq, Repr

namespace PointKind

def letter : PointKind → String
  | state => "S"
  | action => "A"

def word : PointKind → String
  | state => "state"
  | action => "action"

def heading : PointKind → String
  | state => "State x"
  | action => "Action π"

end PointKind

structure Point where
  kind : PointKind
  values : List Value
  dimension : Value

namespace Point

/-- A vector of given values. -/
def make (kind : PointKind) (values dimension : Value) : Except Error Point := do
  let dimension ← if dimension.isNull then (values.length).map Value.ofNat else pure dimension
  if kind = .action && values.isNull then throw .misapplied
  if dimension.isInt 0 then throw (.emptyVector kind.word)
  let values ← if values.isNull then do
      let n ← dimension.count
      pure ((List.range n).map (fun i => Value.text (kind.letter ++ toString (i + 1))))
    else values.members
  return ⟨kind, values, dimension⟩

def call (v : Point) : List (String × Value) := v.values.mapIdx (fun i x => (v.kind.letter ++ toString (i + 1), x))

def text (v : Point) : String := v.kind.heading ++ v.dimension.toText ++ ": " ++ (Value.list v.values).toText

end Point

end Supermartingale
