import Supermartingale.Polynomial.Equation
import Supermartingale.Value

/-!
# The powers of a template

A template of some degree has one monomial for every vector of powers whose sum does not exceed
the degree. The vectors are taken in lexicographic order and numbered from one; the numbers name
the unknown constants of the template.
-/

namespace Supermartingale.Powers

/-- The vectors of `n` powers whose sum is at most `d`, in lexicographic order. -/
def vectors : Nat → Nat → List (List Nat)
  | 0, _ => [[]]
  | n + 1, d => (List.range (d + 1)).flatMap (fun p => (vectors n (d - p)).map (p :: ·))

def number (vs : List (List Nat)) : List (String × List Nat) := vs.mapIdx (fun i v => (toString (i + 1), v))

/-- The numbered vectors of `n` powers up to a degree; a negative degree has none. -/
def table (degree : Int) (n : Nat) : List (String × List Nat) :=
  if degree < 0 then [] else number (vectors n degree.toNat)

def stateNames (n : Nat) : List String := (List.range n).map (fun i => "S" ++ toString (i + 1))

def vectorText : List Nat → String
  | [p] => "(" ++ toString p ++ ",)"
  | v => "(" ++ String.intercalate ", " (v.map toString) ++ ")"

def monomial (names : List String) (constant : String) (powers : List Nat) : Except Error Monomial :=
  let names := names ++ [constant]
  let powers := powers ++ [1]
  if names.length = powers.length then
    .ok (Monomial.canonical (.given (.int 1))
      (names.zip (powers.map (fun p : Nat => Number.int (Int.ofNat p)))))
  else .error (.unmatchedPowers (Text.quotedList names) (vectorText powers))

def constants (stem : String) (rows : List (String × List Nat)) : List String :=
  rows.map (fun (i, _) => stem ++ "_" ++ i)

def equation (names : List String) (stem : String) (rows : List (String × List Nat)) : Except Error Equation := do
  let ms ← rows.mapM (fun (i, powers) => monomial names (stem ++ "_" ++ i) powers)
  return ⟨ms⟩

/-- How many variables there are, where their number or their names are given. -/
def dimension : Nat ⊕ List String → Value
  | .inl n => .ofNat n
  | .inr names => .ofNat names.length

/-- The tables that have been made, the latest first. A degree that is given as a double is good
only for a table that exists already. -/
structure Shelf where
  made : List ((Number × Nat) × List (String × List Nat)) := []

def Shelf.capacity : Nat := 4

def Shelf.get (shelf : Shelf) (degree dimension : Value) : Except Error (List (String × List Nat) × Shelf) := do
  let d ← degree.toNumber
  let n ← dimension.toNumber
  let n ← match n with
    | .int n => pure n
    | .double _ => throw .misapplied
  let key := (d, n.toNat)
  let same (k : Number × Nat) : Bool := k.1.same d && k.2 == n.toNat
  match shelf.made.find? (fun (k, _) => same k) with
  | some (k, rows) =>
    return (rows, ⟨(k, rows) :: shelf.made.filter (fun (k, _) => !same k)⟩)
  | none =>
    match d with
    | .int d =>
      if n < 0 then throw .negativeCount
      let rows := table d n.toNat
      return (rows, ⟨((key, rows) :: shelf.made).take Shelf.capacity⟩)
    | .double _ => throw .misapplied

end Supermartingale.Powers
