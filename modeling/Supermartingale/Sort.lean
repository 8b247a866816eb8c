/-!
# Sorting

A stable merge sort that recurses on the structure of lists. Runs of sorted items are kept like the
digits of a binary number: a new run is merged with the first one, and the result is carried on.
-/

namespace Supermartingale.Sort

variable {α : Type}

/-- Merges a sorted list that starts with `x` and goes on with `xs` into another one; `rest` merges
`xs`. -/
def mergeFrom (le : α → α → Bool) (x : α) (xs : List α) (rest : List α → List α) : List α → List α
  | [] => x :: xs
  | y :: ys => if le x y then x :: rest (y :: ys) else y :: mergeFrom le x xs rest ys

/-- Merges two sorted lists. Of items that are equal those of the first list come first. -/
def merge (le : α → α → Bool) : List α → List α → List α
  | [], ys => ys
  | x :: xs, ys => mergeFrom le x xs (merge le xs) ys

def carry (le : α → α → Bool) (run : List α) : List (Option (List α)) → List (Option (List α))
  | [] => [some run]
  | none :: runs => some run :: runs
  | some first :: runs => none :: carry le (merge le run first) runs

def sort (le : α → α → Bool) (xs : List α) : List α :=
  let runs := xs.foldr (fun x runs => carry le [x] runs) []
  runs.foldl (fun before run => run.elim before (merge le before)) []

end Supermartingale.Sort
