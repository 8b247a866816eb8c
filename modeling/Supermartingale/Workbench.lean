import Supermartingale.Space

/-!
# A workbench of shared polynomials

A workbench keeps named monomials, polynomials and inequalities. An inequality refers to the polynomials it was made
from as long as nothing had to be subtracted, so negating a polynomial in place shows in it.
-/

namespace Supermartingale.Workbench

abbrev Ref := Nat

inductive Item where
  | monomial (m : Monomial)
  | equation (r : Ref)
  | inequality (left : Ref) (relation : Relation) (right : Ref)
  | nothing

inductive Part where
  | monomial (m : Monomial)
  | nested (r : Ref)
  | absent

structure Bench where
  cells : Array (List Part) := #[]
  names : List (String × Item) := []
  spaces : List (String × List Item) := []

instance : Inhabited Bench := ⟨{}⟩

abbrev Step (α : Type) := ExceptT Error (StateM Bench) α

/-! ## Places -/

def store (e : Equation) : Step Ref := do
  let bench ← get
  set { bench with cells := bench.cells.push (e.monomials.map .monomial) }
  return bench.cells.size

def parts (r : Ref) : Step (List Part) := return ((← get).cells[r]?).getD []

def update (r : Ref) (ps : List Part) : Step Unit :=
  modify (fun bench => { bench with cells := bench.cells.setIfInBounds r ps })

def Part.term : Part → Except Error Monomial
  | .monomial m => .ok m
  | _ => .error .absentPart

def fetch (r : Ref) : Step Equation := do
  return ⟨← liftM ((← parts r).mapM Part.term)⟩

def depth : Step Nat := return (← get).cells.size + 1

def textAt : Nat → Ref → Step String
  | 0, _ => throw .circular
  | fuel + 1, r => do
    let texts ← (← parts r).mapM (fun part => do
      match part with
      | .monomial m => return "(" ++ m.text ++ ")"
      | .nested s => return "(" ++ (← textAt fuel s) ++ ")"
      | .absent => return "(None)")
    return if texts.isEmpty then "0" else String.intercalate " + " texts

/-- Negates the polynomial at a place, part by part. -/
def negateAt : Nat → Ref → Step Unit
  | 0, _ => throw .circular
  | fuel + 1, r => do
    (← parts r).zipIdx.forM (fun (part, i) => do
      let part ← match part with
        | .monomial m => pure (Part.monomial m.negate)
        | .nested s => do
          negateAt fuel s
          pure Part.absent
        | .absent => throw .absentPart
      update r ((← parts r).set i part))

def likeAt : Nat → Ref → Ref → Step Bool
  | 0, _, _ => throw .circular
  | fuel + 1, r, s => do
    if r = s then return true
    let ps ← parts r
    let qs ← parts s
    if ps.length ≠ qs.length then return false
    (ps.zip qs).allM (fun (p, q) => do
      match p, q with
      | .monomial m, .monomial n => return m.like n
      | .nested r, .nested s => likeAt fuel r s
      | .absent, .absent => return true
      | _, _ => return false)

def lookup (name : String) : Step Item := do
  match (← get).names.find? (fun (n, _) => n == name) with
  | some (_, item) => return item
  | none => throw (.missingKey name)

def bind (name : String) (item : Item) : Step Unit :=
  modify (fun bench => { bench with names := (name, item) :: bench.names.filter (fun (n, _) => n != name) })

/-! ## Operations -/

def compare (left : Ref) (relation : Relation) (right : Ref) : Step Item := do
  let r ← fetch right
  if r.isZero then return .inequality left relation right
  else
    let l ← fetch left
    let difference ← store (l.sub r)
    let nothing ← store Equation.zero
    return .inequality difference relation nothing

def inequality (left : Ref) (relation : Relation) (right : Ref) : Step Inequality := do
  let l ← fetch left
  let r ← fetch right
  return ⟨l, relation, r⟩

def inequalityText (left : Ref) (relation : Relation) (right : Ref) : Step String := do
  let l ← textAt (← depth) left
  let r ← if (← parts right).length > 1 then pure "RHS" else textAt (← depth) right
  return l ++ " " ++ relation.sign ++ " " ++ r

def sortName : Item → String
  | .monomial _ => "<class 'system.polynomial.polynomial.Monomial'>"
  | .equation _ => "<class 'system.polynomial.equation.Equation'>"
  | .inequality _ _ _ => "<class 'system.polynomial.inequality.Inequality'>"
  | .nothing => "<class 'NoneType'>"

def isWritable : Scalar → Bool
  | .given n => n.isWritable
  | c => c.form.isWritable

def monomial (coefficient : Number) (names : List String) (powers : List Number) : Step Item := do
  if !(coefficient :: powers).all Number.isWritable then throw .numeralTooLong
  return .monomial (← liftM (Monomial.make (.given coefficient) names powers))

def add (a b : Item) : Step Item := do
  match a, b with
  | .monomial m, .monomial n =>
    match ← liftM (m.add n) with
    | some s =>
      if isWritable s.coefficient then return .monomial s else throw .numeralTooLong
    | none => return .nothing
  | .monomial _, _ => return .nothing
  | .equation r, .equation s =>
    let e ← fetch r
    let f ← fetch s
    return .equation (← store (e.add f))
  | .equation _, other => throw (.expectedPolynomial (sortName other))
  | _, _ => throw .absentPart

/-- Subtracts a polynomial from another. -/
def sub (a b : Item) : Step Item := do
  match a, b with
  | .equation r, .equation s =>
    (← parts s).forM (fun part => do
      match part with
      | .monomial _ => return ()
      | .nested t =>
        negateAt (← depth) t
        throw .absentPart
      | .absent => throw .absentPart)
    let e ← fetch r
    let f ← fetch s
    return .equation (← store (e.sub f))
  | .equation _, other => throw (.expectedPolynomial (sortName other))
  | _, _ => throw .absentPart

def negate (a : Item) : Step Item := do
  match a with
  | .monomial m => return .monomial m.negate
  | .equation r =>
    negateAt (← depth) r
    return .nothing
  | _ => throw .absentPart

def push (a b : Item) : Step Unit := do
  match a, b with
  | .equation r, .monomial m =>
    if m.isZero then return () else update r ((← parts r) ++ [.monomial m])
  | .equation r, .equation s =>
    if (← fetch s).isZero then return () else update r ((← parts r) ++ [.nested s])
  | _, _ => throw .absentPart

def equation (items : List Item) : Step Item := do
  let ms ← items.mapM (fun item => do
    match item with
    | .monomial m => return m
    | _ => throw .absentPart)
  return .equation (← store ⟨ms⟩)

/-- Whether two items are the same: like monomials, polynomials with like monomials in the same
order, inequalities with the same text. -/
def same (a b : Item) : Step Bool := do
  match a, b with
  | .monomial m, .monomial n => return m.like n
  | .equation r, .equation s => likeAt (← depth) r s
  | .inequality l r s, .inequality l' r' s' =>
    return (← inequalityText l r s) == (← inequalityText l' r' s')
  | .nothing, .nothing => return true
  | _, _ => return false

def text (a : Item) : Step String := do
  match a with
  | .monomial m => return m.text
  | .equation r => textAt (← depth) r
  | .inequality l r s => inequalityText l r s
  | .nothing => return "None"

def identity (a : Item) : Step String := do
  match a with
  | .inequality _ _ _ => text a
  | .nothing => return ""
  | _ => throw .misapplied

def sameIdentity (a b : Item) : Step Bool := do
  let s ← identity a
  let t ← identity b
  return s == t

def substitute (a : Item) (values : List (String × String)) : Step String := do
  match a with
  | .equation _ =>
    if values.any (·.1 == "self") then throw .misapplied
    else return Equation.substituteText values (← text a)
  | _ => throw .misapplied

/-- Compares two polynomials. A monomial that is not zero cannot be subtracted from a polynomial. -/
def makeInequality (a : Item) (relation : Relation) (b : Item) : Step Item := do
  let relaxed := relation.relax
  let (a, relation, b) := if relaxed = .le then (b, relaxed.swap, a) else (a, relaxed, b)
  match a, b with
  | .equation l, .equation r => compare l relation r
  | .equation _, .monomial m =>
    if m.isZero then throw .absentPart else throw (.expectedPolynomial (sortName b))
  | _, _ => throw .absentPart

def negateInequality (a : Item) : Step Item := do
  match a with
  | .inequality l r s => makeInequality (.equation l) r.negateRelaxed (.equation s)
  | _ => throw .absentPart

def left (a : Item) : Step Item := do
  match a with
  | .inequality l _ _ => return .equation l
  | _ => throw .absentPart

def spaceLimit : Nat := 32

/-- The inequalities of a space text. -/
def space (s : String) : Step (List Item) := do
  let known := (← get).spaces
  let items ← match known.find? (fun (t, _) => t == s) with
    | some (_, items) => pure items
    | none => do
      let inequalities ← liftM (Space.read s)
      inequalities.mapM (fun i => do
        let l ← store i.left
        let r ← store i.right
        return Item.inequality l i.relation r)
  let others := known.filter (fun (t, _) => t != s)
  modify (fun bench => { bench with spaces := ((s, items) :: others).take spaceLimit })
  return items

end Supermartingale.Workbench
