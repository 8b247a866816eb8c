import Supermartingale.Error
import Supermartingale.Symbolic.Text

/-!
# Monomials

A monomial is a coefficient times powers of names. Its names stand in code point order, no power
is zero, and a monomial with coefficient zero has no names. Two monomials are like terms exactly
when they have the same names with the same powers.
-/

namespace Supermartingale

/-! ## Coefficients -/

inductive Scalar where
  | given (x : Number)
  | exact (q : Rat)
  | approx (a : Approx)
  /-- An expression without unknowns that is no rational and no approximation. -/
  | symbolic (x : Symbolic)

instance : Inhabited Scalar := ⟨.exact 0⟩

namespace Scalar

def zero : Scalar := .given (.int 0)

def undefined : Scalar := .symbolic Symbolic.undefined

def ofForm : Symbolic → Scalar
  | .exact q => .exact q
  | .approx a => .approx a
  | x => .symbolic x

/-- Writing knows no `digitLimit`: a coefficient that is too long to be read again has a text, too. -/
def text : Scalar → String
  | .given x => x.text
  | .exact q => if q.den = 1 then toString q.num else toString q.num ++ "/" ++ toString q.den
  | .approx a => a.text
  | .symbolic x => x.text

def value? : Scalar → Option Rat
  | .given x => x.value?
  | .exact q => some q
  | .approx a => some a.value
  | .symbolic _ => none

def isZero (c : Scalar) : Bool := c.value? == some 0

def isOne (c : Scalar) : Bool := c.value? == some 1

def adopt : Number → Scalar
  | .int n => .exact n
  | .double x =>
    if x.isNaN then undefined
    else if x.isInf then .symbolic (if x > 0 then Symbolic.infinity else Symbolic.negInfinity)
    else .approx ⟨Double.value x, Approx.standard⟩

def adopted : Scalar → Scalar
  | .given x => adopt x
  | c => c

def form (c : Scalar) : Symbolic :=
  match c.adopted with
  | .exact q => .exact q
  | .approx a => .approx a
  | .symbolic x => x
  | .given _ => Symbolic.undefined

def addText (c d : Scalar) : Scalar :=
  match c.adopted, d.adopted with
  | .exact p, .exact q => .exact (p + q)
  | c, d => ofForm (c.form.add d.form)

def add : Scalar → Scalar → Except Number.Fault Scalar
  | .given x, .given y => (x.add y).map .given
  | c, d => .ok (addText c d)

def neg : Scalar → Scalar
  | .given x => .given x.neg
  | .exact q => .exact (-q)
  | .approx a => .approx a.neg
  | .symbolic x => ofForm x.neg

end Scalar

end Supermartingale

namespace Supermartingale.Smt

inductive Term where
  | number (c : Scalar)
  | var (name : String)
  | mul (a b : Term)
  | add (a b : Term)

namespace Term

def render : Term → String
  | number c => c.text
  | var name => name
  | mul a b => "(* " ++ a.render ++ " " ++ b.render ++ ")"
  | add a b => "(+ " ++ a.render ++ " " ++ b.render ++ ")"

/-- The term for a power: the product is split in two halves, the larger one second. -/
def power (name : String) (n : Nat) : Term :=
  if n = 0 then number (.given (.int 1))
  else if n = 1 then var name
  else if n = 2 then mul (var name) (var name)
  else mul (power name (n / 2)) (power name ((n + 1) / 2))
termination_by n

end Term

end Supermartingale.Smt

/-! ## Monomials -/

namespace Supermartingale

structure Monomial where
  coefficient : Scalar
  powers : List (String × Number)

namespace Monomial

/-- The canonical monomial of a coefficient and powers: zero powers are dropped and the names are
sorted. -/
def canonical (coefficient : Scalar) (powers : List (String × Number)) : Monomial :=
  if coefficient.isZero then ⟨Scalar.zero, []⟩
  else ⟨coefficient, Sort.sort (fun a b => a.1 ≤ b.1) (powers.filter (fun (_, p) => !p.isZero))⟩

def make (coefficient : Scalar) (names : List String) (powers : List Number) : Except Error Monomial :=
  if names.length ≠ powers.length then
    .error (.unmatchedPowers (Text.quotedList names) (Number.listText powers))
  else .ok (canonical coefficient (names.zip powers))

def constant (coefficient : Scalar) : Monomial := canonical coefficient []

def samePowers : List (String × Number) → List (String × Number) → Bool
  | [], [] => true
  | (a, p) :: s, (b, q) :: t => a == b && p.same q && samePowers s t
  | _, _ => false

def like (m n : Monomial) : Bool := samePowers m.powers n.powers

def add (m n : Monomial) : Except Error (Option Monomial) :=
  if m.like n then do
    let c ← liftFault (m.coefficient.add n.coefficient)
    return some (canonical c m.powers)
  else .ok none

def negate (m : Monomial) : Monomial := canonical m.coefficient.neg m.powers

def isZero (m : Monomial) : Bool := m.coefficient.isZero

def isNumeric (m : Monomial) : Bool := m.powers.isEmpty

/-- The names of a monomial that stand for unknown constants: those with an underscore. -/
def constants (m : Monomial) : List String := (m.powers.map (·.1)).filter (fun v => v.toList.contains '_')

def powerText (v : String) (p : Number) : String :=
  if p.isOne then v else v ++ "**" ++ p.text

def text (m : Monomial) : String :=
  if m.coefficient.isZero then "0"
  else if m.powers.isEmpty then m.coefficient.text
  else
    let body := String.intercalate " * " (m.powers.map (fun (v, p) => powerText v p))
    if m.coefficient.isOne then body else m.coefficient.text ++ " * " ++ body

def natOfDouble? (x : Float) : Option Nat :=
  if x.isNaN || x.isInf || x < 0 then none
  else
    let q := Double.value x
    if q.den = 1 then some q.num.natAbs else none

/-- The solver's term for a power. -/
def powerTerm (v : String) (p : Number) : Except Error Smt.Term :=
  match p with
  | .int n => if n < 0 then .error .negativePower else .ok (Smt.Term.power v n.toNat)
  | .double x =>
    match natOfDouble? x with
    | some n => .ok (Smt.Term.power v n)
    | none =>
      match natOfDouble? (x / 2).floor, natOfDouble? ((x + 1) / 2).floor with
      | some a, some b => .ok (.mul (Smt.Term.power v a) (Smt.Term.power v b))
      | _, _ => .error .negativePower

def term (m : Monomial) : Except Error Smt.Term :=
  if m.coefficient.isZero then .ok (.number Scalar.zero)
  else m.powers.foldlM (fun t (v, p) => do return .mul t (← powerTerm v p)) (.number m.coefficient)

end Monomial

end Supermartingale
