import Supermartingale.Polynomial.Evaluation
import Supermartingale.Polynomial.Expansion
import Supermartingale.Polynomial.Monomial
import Supermartingale.Text.Replace

/-!
# Polynomials as lists of monomials

Sums and differences of polynomials are formed by appending monomials, without collecting like terms. A polynomial
read from a text has no zero coefficients and no like terms, and its monomials stand in decreasing lexicographic
order.
-/

namespace Supermartingale

structure Equation where
  monomials : List Monomial

instance : Inhabited Equation := ⟨⟨[]⟩⟩

namespace Equation

def zero : Equation := ⟨[]⟩

def push (e : Equation) (m : Monomial) : Equation :=
  if m.isZero then e else ⟨e.monomials ++ [m]⟩

def add (e f : Equation) : Equation := f.monomials.foldl push e

def sub (e f : Equation) : Equation := f.monomials.foldl (fun e m => e.push m.negate) e

def isNumeric (e : Equation) : Bool :=
  match e.monomials with
  | [m] => m.isNumeric
  | _ => false

def isZero (e : Equation) : Bool := e.monomials.all Monomial.isZero

def text (e : Equation) : String :=
  match e.monomials with
  | [] => "0"
  | ms => String.intercalate " + " (ms.map (fun m => "(" ++ m.text ++ ")"))

def term (e : Equation) : Except Error Smt.Term :=
  if e.isZero then .ok (.number Scalar.zero)
  else match e.monomials with
    | [] => .ok (.number Scalar.zero)
    | m :: ms => do
      let first ← m.term
      ms.foldlM (fun t m => do return .add t (← m.term)) first

def smt (e : Equation) : Except Error String := do return (← e.term).render

/-- Writes texts in parentheses in place of names, one name after the other. -/
def substituteText (values : List (String × String)) (s : String) : String :=
  values.foldl (fun s (k, v) => Text.replaceAll k ("(" ++ v ++ ")") s) s

def substitute (e : Equation) (values : List (String × String)) : String := substituteText values e.text

def constants (e : Equation) : List String := (e.monomials.flatMap Monomial.constants).eraseDups

/-! ## Reading -/

/-- The rank of a generator with this stem: single small letters come first, `x`, `y`, `z` before
`p` to `w` before `a` to `o`. -/
def stemRank (stem : List Char) : Nat :=
  match stem with
  | [c] =>
    let n := c.toNat
    if 'a' ≤ c && c ≤ 'o' then 301 + (n - 'a'.toNat)
    else if 'p' ≤ c && c ≤ 'w' then 216 + (n - 'p'.toNat)
    else if 'x' ≤ c && c ≤ 'z' then 124 + (n - 'x'.toNat)
    else 1000
  | _ => 1000

def generatorKey (s : String) : Nat × String × Nat :=
  let reversed := s.toList.reverse
  let digits := (reversed.takeWhile Text.isDecimal).reverse
  let stem := (reversed.dropWhile Text.isDecimal).reverse
  (stemRank stem, String.ofList stem, digitsValue (digits.map Text.plainDigit))

def generatorLe (s t : String) : Bool :=
  let (r, a, i) := generatorKey s
  let (q, b, j) := generatorKey t
  if r ≠ q then r < q
  else if a ≠ b then a < b
  else if i ≠ j then i < j
  else s.length ≤ t.length

def powerOf (g : String) (powers : List (String × Nat)) : Nat := (powers.find? (fun (h, _) => h == g)).elim 0 (·.2)

def vectorGe : List Nat → List Nat → Bool
  | a :: s, b :: t => if a = b then vectorGe s t else b < a
  | _, _ => true

/-- The polynomial of terms with different powers: the generators are put in their order, and the
monomials stand by decreasing powers of them. -/
def ofTerms (terms : List (List (String × Nat) × Scalar)) : Equation :=
  let generators := Sort.sort generatorLe (terms.flatMap (fun (ps, _) => ps.map (·.1))).eraseDups
  let rows := terms.map (fun (ps, c) => (generators.map (fun g => powerOf g ps), c))
  let sorted := Sort.sort (fun r q => vectorGe r.1 q.1) rows
  ⟨sorted.map (fun (v, c) => Monomial.canonical c (generators.zip (v.map (fun n : Nat => Number.int (Int.ofNat n)))))⟩

def ofExpansion (s : Expansion) : Equation := ofTerms (s.map (fun (p, c) => (p, Scalar.exact c)))

def mergeTerms (terms : List (List (String × Nat) × Symbolic)) : List (List (String × Nat) × Symbolic) :=
  terms.foldl (fun acc (ps, c) =>
    if acc.any (fun (qs, _) => qs == ps) then
      acc.map (fun (qs, d) => if qs == ps then (qs, d.add c) else (qs, d))
    else acc ++ [(ps, c)]) []

/-- The polynomial of an expression that has been multiplied out. -/
def ofForm (x : Symbolic) : Equation :=
  if x.isConstant then ⟨[Monomial.constant (Scalar.ofForm x)].filter (fun m => !m.isZero)⟩
  else
    let terms := x.polynomialTerms.map (fun t =>
      (Sort.sort (fun a b => a.1 ≤ b.1) (t.powers.map (fun (g, k) => (g.text, k))), t.coefficient))
    let terms := mergeTerms terms
    let precision := Symbolic.widestOf (terms.map (·.2))
    ofTerms (terms.map (fun (ps, c) =>
      (ps, Scalar.ofForm (match precision with
        | some p => c.atPrecision p
        | none => c))))

/-- The polynomial of an expression. -/
def ofSymbolic (x : Symbolic) : Except Error Equation := do
  let expanded := x.expand
  if !expanded.isWritable then throw .numeralTooLong
  return ofForm (← Evaluated.ofText expanded.text)

def ofText (s : String) : Except Error Equation :=
  match (Expression.read s).bind Expansion.ofExpression? with
  | some p => if p.isWritable then .ok (ofExpansion p) else .error .numeralTooLong
  | none => do ofSymbolic (← Evaluated.ofText s)

def ofNumber (n : Number) : Except Error Equation := ofSymbolic (Scalar.adopt n).form

end Equation

end Supermartingale
