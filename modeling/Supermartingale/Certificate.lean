import Supermartingale.Polynomial.Powers

/-!
# Certificates

A certificate for an automaton specification has two templates: one shows that the rejecting states
are avoided, the other that the accepting ones are visited again and again.
-/

namespace Supermartingale

/-! ## Templates

A certificate assigns to every automaton state a polynomial over the state variables. A template
has one unknown constant for every power of the state variables and every automaton state. -/

inductive TemplateKind where
  | reach
  | safe
  | live
deriving DecidableEq, Repr

namespace TemplateKind

def named : List (String × TemplateKind) := [("REACH", reach), ("SAFE", safe), ("LIVE", live)]

def ofName (s : String) : Except Error TemplateKind :=
  match named.find? (·.1 == s) with
  | some (_, k) => .ok k
  | none => .error (.unknownTemplateKind s)

def text : TemplateKind → String
  | reach => "Reach"
  | safe => "Safe "
  | live => "Live "

def signature : TemplateKind → String
  | reach => "V_reach"
  | safe => "V_safe"
  | live => "V_live"

end TemplateKind

structure Family where
  equations : List (String × Equation)
  constants : List String

namespace Family

def make (names : List String) (stem : String) (count : Nat) (rows : List (String × List Nat)) :
    Except Error Family := do
  let stems := (List.range count).map (fun i => (toString i, stem ++ "_" ++ toString i))
  let equations ← stems.mapM (fun (key, s) => do return (key, ← Powers.equation names s rows))
  return ⟨equations, (stems.flatMap (fun (_, s) => Powers.constants s rows)).eraseDups⟩

def get (f : Family) (state : String) : Except Error Equation :=
  match f.equations.find? (·.1 == state) with
  | some (_, e) => .ok e
  | none => .error (.missingKey state)

end Family

structure Template where
  kind : TemplateKind
  states : Value
  actions : Value
  automatonStates : Nat
  degree : Value
  family : Family

namespace Template

def make (kind : TemplateKind) (number : Option Int) (states actions degree : Value)
    (automatonStates : Nat) (names : List String) (shelf : Powers.Shelf) :
    Except Error (Template × Powers.Shelf) := do
  if kind = .live && number.isNone then throw (.templateWithoutNumber kind.text)
  let stem := kind.signature ++ number.elim "" toString
  let (rows, shelf) ← shelf.get degree states
  let family ← Family.make names stem automatonStates rows
  return (⟨kind, states, actions, automatonStates, degree, family⟩, shelf)

def constants (t : Template) : List String := t.family.constants

def text (t : Template) : String :=
  "Template(V=" ++ t.kind.text ++ ", |S|=" ++ t.states.toText ++ ", |A|=" ++ t.actions.toText ++
    ", |Q|=" ++ toString t.automatonStates ++ ", |C|=" ++
    Text.padRight 3 (toString t.constants.length) ++ ", deg=" ++ t.degree.toText ++ ")"

def detailed (t : Template) : String :=
  t.text ++ "\n" ++ String.intercalate "\n" (t.family.equations.map (fun (k, e) =>
    "  - (q" ++ Text.padRight 2 k ++ "): " ++ e.text))

end Template

/-! ## Parameters -/

structure CertificateVariables where
  levelDecreaseBound : Equation
  stepBound : Equation
  zero : Equation
  almostZero : Equation
  safeDecrease : Equation
  liveDecrease : Equation
  safeOffset : Equation
  level : Equation
  levelDecrease : Equation
  liveStep : Equation

namespace CertificateVariables

def constants : List String := ["Epsilon_safe", "Epsilon_live", "Beta_safe", "Eta_safe", "Delta_live"]

def tiny : String := "1e-15"

/-- The logarithm of a number as it counts in a bound: exact for the integer one, otherwise rounded
to the precision of doubles. -/
def logarithm (x : Number) : Symbolic :=
  match x with
  | .int 1 => Symbolic.zero
  | x => match x.value? with
    | some q => Symbolic.settled (Logarithm.approx Approx.standard q)
    | none => Symbolic.undefined

def boundPrecision : Nat := Approx.bitsOfDigits 10

/-- The bound of the level times the decrease: the square of the step bound times an eighth of the
logarithm of the probability that remains, and a tiny bit more. -/
def bound (probability step : Number) : Except Error String := do
  let remaining ← liftFault ((Number.int 1).sub probability)
  let tiny := (Scalar.adopt (.double (Number.nearestDouble (1 / (Nat.pow 10 15 : Rat))))).form
  let square := (Scalar.adopt step).form.pow (.exact 2)
  match tiny.add ((square.mul (logarithm remaining)).div (.exact 8)) with
  | .approx a => return (Approx.ofRat boundPrecision a.value).text
  | x => return x.text

def make (probability step : Value) : Except Error CertificateVariables := do
  let s ← match step.number? with
    | some s => pure s
    | none => throw (.incomparable step.sortName "int")
  if !(Number.int 0).less s then throw .deltaNotPositive
  let p ← match probability.number? with
    | some p => pure p
    | none => throw (.incomparable "int" probability.sortName)
  if !p.less (.int 1) || !((Number.int 0).less p || p.isZero) then throw .probabilityOutOfRange
  return {
    levelDecreaseBound := ← Equation.ofText (← bound p s)
    stepBound := ← Equation.ofText step.toText
    zero := ← Equation.ofText "0"
    almostZero := ← Equation.ofText tiny
    safeDecrease := ← Equation.ofText "Epsilon_safe"
    liveDecrease := ← Equation.ofText "Epsilon_live"
    safeOffset := ← Equation.ofText "Beta_safe"
    level := ← Equation.ofText "Eta_safe"
    levelDecrease := ← Equation.ofText "Eta_safe * Epsilon_safe"
    liveStep := ← Equation.ofText "Delta_live" }

end CertificateVariables

/-! ## Templates -/

structure Certificate where
  states : Value
  actions : Value
  degree : Value
  automatonStates : Nat
  sets : Nat
  parameters : CertificateVariables
  safe : Template
  live : Template
  names : List String
  constants : List String

namespace Certificate

def make (states actions degree : Value) (automatonStates sets : Nat)
    (parameters : CertificateVariables) (shelf : Powers.Shelf) : Except Error (Certificate × Powers.Shelf) := do
  let names := Powers.stateNames (← states.count)
  let (live, shelf) ← Template.make .live (some 0) states actions degree automatonStates names shelf
  let (safe, shelf) ← Template.make .safe none states actions degree automatonStates names shelf
  let constants := (safe.constants ++ live.constants ++ CertificateVariables.constants).eraseDups
  return (⟨states, actions, degree, automatonStates, sets, parameters, safe, live, names, constants⟩, shelf)

def addConstant (c : Certificate) (name : String) : Certificate :=
  { c with constants := (c.constants ++ [name]).eraseDups }

def text (c : Certificate) : String :=
  "Certificate(|S|=" ++ c.states.toText ++ ", |A|=" ++ c.actions.toText ++ ", |Q|=" ++
    toString c.automatonStates ++ ", |F|=" ++ toString c.sets ++ ", |C|=" ++
    Text.padRight 3 (toString c.constants.length) ++ ", deg=" ++ c.degree.toText ++ ")\n\t-" ++
    c.safe.text ++ "\n\t-" ++ c.live.text

end Certificate

end Supermartingale
