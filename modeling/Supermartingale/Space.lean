import Supermartingale.Polynomial.Inequality

/-!
# Spaces

A space is a conjunction of comparisons, written as chunks joined by `and`, `AND` or `&`. A chunk
compares two polynomials, or one polynomial with a bound on either side. Disjunctions are
refused.
-/

namespace Supermartingale.Space

def refused : List String := ["or", "OR", "|"]

def relaxSigns (s : String) : String :=
  let plain := Text.replaceAll " " "" s
  let strict := Text.replaceAll "<=" "<" (Text.replaceAll ">=" ">" plain)
  Text.replaceAll "<" "<=" (Text.replaceAll ">" ">=" strict)

/-- The operands of a chunk and the comparisons between them, from the left; `piece` holds the
current operand in reverse. -/
def cutSigns : List Char → List Char → List Char × List (Relation × List Char)
  | piece, [] => (piece.reverse, [])
  | piece, '<' :: '=' :: cs =>
    let (operand, rest) := cutSigns [] cs
    (piece.reverse, (.le, operand) :: rest)
  | piece, '>' :: '=' :: cs =>
    let (operand, rest) := cutSigns [] cs
    (piece.reverse, (.ge, operand) :: rest)
  | piece, c :: cs => cutSigns (c :: piece) cs

def compareTexts (left : List Char) (relation : Relation) (right : List Char) : Except Error Inequality := do
  let l ← Equation.ofText (String.ofList left)
  let r ← Equation.ofText (String.ofList right)
  return Inequality.make l relation r

/-- The inequalities of one chunk: one for each comparison, of which there are one or two. -/
def readChunk (s : String) : Except Error (List Inequality) :=
  let chunk := relaxSigns s
  match cutSigns [] chunk.toList with
  | (_, []) => .error (.noComparison chunk)
  | (a, [(r, b)]) => do return [← compareTexts a r b]
  | (a, [(r, b), (q, c)]) => do
    let first ← compareTexts a r b
    let second ← compareTexts b q c
    return [first, second]
  | _ => .error (.manyComparisons chunk)

def read (s : String) : Except Error (List Inequality) :=
  match refused.find? (fun word => Text.contains word s) with
  | some word => .error (.refusedWord word s)
  | none => do
    let joined := Text.replaceAll "&" "and" (Text.replaceAll "AND" "and" s)
    let chunks ← (Text.splitOn "and" joined).mapM readChunk
    return chunks.flatten

end Supermartingale.Space
