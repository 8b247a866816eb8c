import Supermartingale.Guard

/-!
# Constraints

A constraint is what the solver is asked to satisfy: an implication between two formulas for all
values of some variables, or a formula about the unknown constants alone.
-/

namespace Supermartingale

/-! ## Formulas

A formula is an inequality, a guarded formula, or two operands joined by a connective. An operand is
absent, one formula, or a list of formulas that the connective of the surrounding formula joins. -/

/-- How the members of a formula are joined. An unknown word is noticed only when it is needed. -/
inductive Joining where
  | known (c : Connective)
  | unknown (word : String)
  | missing

namespace Joining

def connective : Joining → Except Error Connective
  | known c => .ok c
  | unknown word => .error (.missingKey word)
  | missing => .error (.missingKey "None")

end Joining

mutual

inductive Formula where
  | inequality (i : Inequality)
  | guarded (guard : Guard) (body : Operand) (joining : Joining)
  | joined (first second : Operand) (joining : Joining)
  | hole

inductive Operand where
  | absent
  | one (f : Formula)
  | list (fs : List Formula)

end

namespace Operand

def isAbsent : Operand → Bool
  | absent => true
  | _ => false

def isList : Operand → Bool
  | list _ => true
  | _ => false

def ofInequalities (is : List Inequality) : Operand := list (is.map Formula.inequality)

def ofInequality (i : Inequality) : Operand := one (.inequality i)

end Operand

namespace Formula

/-- Two operands joined. At least one is present, and a list needs to know how it is joined. -/
def join (first second : Operand) (joining : Joining) : Except Error Formula :=
  let unspecified := match joining with
    | .missing => true
    | _ => false
  if first.isAbsent && second.isAbsent then .error .emptyFormula
  else if unspecified && (first.isList || second.isList) then .error .unjoinedFormula
  else .ok (joined first second joining)

def conjoin (first : Operand) (second : Operand := .absent) : Except Error Formula :=
  join first second (.known .conjunction)

mutual

/-- The solver's text of a formula. An absent body of a guarded formula reads `None`. -/
def smt : Formula → Except Error String
  | .inequality i => i.smt
  | .guarded guard body joining => do
    let g ← guard.smt
    let b ← operandSmt joining body
    return "(and " ++ g ++ " " ++ b.getD "None" ++ ")"
  | .joined first second joining => do
    let a ← operandSmt joining first
    let b ← operandSmt joining second
    match a, b with
    | some a, some b =>
      let c ← joining.connective
      return "(" ++ c.word ++ " " ++ a ++ " " ++ b ++ ")"
    | none, b => return b.getD "None"
    | some a, none => return a
  | .hole => .error .absentPart

def operandSmt (joining : Joining) : Operand → Except Error (Option String)
  | .absent => .ok none
  | .one f => do return some (← smt f)
  | .list [] => .error .missingPosition
  | .list (f :: fs) => do
    let first ← smt f
    return some (← membersSmt joining first fs)

def membersSmt (joining : Joining) (joined : String) : List Formula → Except Error String
  | [] => .ok joined
  | f :: fs => do
    let c ← joining.connective
    let t ← smt f
    membersSmt joining ("(" ++ c.word ++ " " ++ joined ++ " " ++ t ++ ")") fs

end

/-! ## Readable texts -/

def bracketAll (xs : List String) : List String := xs.map (fun s => "(" ++ s ++ ")")

mutual

def text : Formula → Except Error String
  | .inequality i => .ok i.text
  | .guarded guard body joining =>
    if guard.isGuarded then guardedText guard joining body
    else do
      match ← operandText joining body with
      | some s => return s
      | none => throw .misapplied
  | .joined first second joining => do
    let a ← operandText joining first
    let b ← operandText joining second
    match a, b with
    | some a, some b =>
      let c ← joining.connective
      return "(" ++ a ++ " " ++ c.sign ++ " " ++ b ++ ")"
    | none, b => return b.getD "None"
    | some a, none => return a
  | .hole => .ok "None"

/-- The short text of an operand. Of more than three members only the first and the last are
shown. -/
def operandText (joining : Joining) : Operand → Except Error (Option String)
  | .absent => .ok none
  | .one f => do return some (← text f)
  | .list fs => do
    let c ← joining.connective
    let separator := " " ++ c.sign ++ " "
    if fs.length > 3 then
      let ends ← endTexts fs
      return some ("(" ++ ends.1 ++ ")" ++ separator ++ "..+" ++ toString (fs.length - 2) ++ ".." ++
        separator ++ "(" ++ ends.2 ++ ")")
    else return some (String.intercalate separator (bracketAll (← texts fs)))

/-- The short text of a guarded body. Of more than two members only the first and the last are
shown; between fewer the guard stands in every gap. -/
def guardedText (guard : Guard) (joining : Joining) : Operand → Except Error String
  | .absent => .ok (guard.text ++ " & (None)")
  | .one f => do return guard.text ++ " & (" ++ (← text f) ++ ")"
  | .list fs => do
    if fs.length > 2 then
      let ends ← endTexts fs
      let c ← joining.connective
      return guard.text ++ " & (" ++ ends.1 ++ ") " ++ c.sign ++ " ..+" ++ toString (fs.length - 2) ++
        ".. " ++ c.sign ++ " (" ++ ends.2 ++ ")"
    else
      let c ← joining.connective
      return String.intercalate (guard.text ++ " &  " ++ c.sign ++ " ") (bracketAll (← texts fs))

def texts : List Formula → Except Error (List String)
  | [] => .ok []
  | f :: fs => do
    let t ← text f
    let ts ← texts fs
    return t :: ts

def endTexts : List Formula → Except Error (String × String)
  | [] => .ok ("", "")
  | f :: fs => do
    let t ← text f
    let last ← lastText t fs
    return (t, last)

def lastText (previous : String) : List Formula → Except Error String
  | [] => .ok previous
  | [f] => text f
  | _ :: fs => lastText previous fs

end

mutual

/-- The detailed text of a formula; absent where nothing is to be shown. A formula whose guard is
empty shows its body in short. -/
def detailed : Formula → Except Error (Option String)
  | .inequality i => .ok (some i.detailed)
  | .guarded guard body joining =>
    if guard.isGuarded then guardedDetailed guard joining body else operandText joining body
  | .joined first second joining => do
    let a ← operandDetailed joining first
    let b ← operandDetailed joining second
    let shown (s : Option String) : Bool := match s with
      | some s => !s.isEmpty
      | none => false
    if shown a && shown b then
      let c ← joining.connective
      return some ("(" ++ a.getD "" ++ " " ++ c.sign ++ " " ++ b.getD "" ++ ")")
    else return if shown a then a else b
  | .hole => .error .absentPart

def operandDetailed (joining : Joining) : Operand → Except Error (Option String)
  | .absent => .ok none
  | .one f => do return some ((← detailed f).getD "None")
  | .list fs => do
    let c ← joining.connective
    return some (String.intercalate (" " ++ c.sign ++ " ") (bracketAll (← detailedTexts fs)))

def guardedDetailed (guard : Guard) (joining : Joining) : Operand → Except Error (Option String)
  | .absent => .error .absentPart
  | .one f => do
    return some (guard.detailed ++ " & (" ++ (← detailed f).getD "None" ++ ")")
  | .list fs => do
    let c ← joining.connective
    let body := String.intercalate (" " ++ c.sign ++ " ") (bracketAll (← detailedTexts fs))
    return some (guard.detailed ++ " & (" ++ body ++ ")")

def detailedTexts : List Formula → Except Error (List String)
  | [] => .ok []
  | f :: fs => do
    let t ← detailed f
    let ts ← detailedTexts fs
    return t.getD "None" :: ts

end

end Formula

/-! ## Constraints -/

inductive Constraint where
  /-- For all values of the bound variables the premise, if there is one, implies the conclusion. -/
  | implication (bound : List String) (premise : Option Formula) (conclusion : Formula)
  | constant (f : Formula)

namespace Constraint

/-- An implication; a left side alone counts as the conclusion. -/
def imply (bound : List String) (left right : Option Formula) : Except Error Constraint :=
  match left, right with
  | none, none => .error .emptyConstraint
  | some l, none => .ok (implication bound none l)
  | l, some r => .ok (implication bound l r)

def declare (v : String) : String := "(" ++ v ++ " Real)"

def smt : Constraint → Except Error String
  | implication bound premise conclusion => do
    let declared := String.intercalate " " (bound.map declare)
    let l ← match premise with
      | some f => f.smt
      | none => pure "(> 1 0)"
    let r ← conclusion.smt
    return "(assert (forall (" ++ declared ++ ") (=> " ++ l ++ " " ++ r ++ ")))"
  | constant f => do return "(assert " ++ (← f.smt) ++ ")"

def sentence (bound : String) (left right : Option String) : String :=
  match left, right with
  | none, none => "Not defined"
  | none, some r => "FORALL: " ++ bound ++ "  THEN: " ++ r
  | some l, r => "FORALL: " ++ bound ++ "  IF: " ++ l ++ "  THEN: " ++ r.getD "None"

def detailed : Constraint → Except Error (Option String)
  | implication bound premise conclusion => do
    let declared := String.intercalate " " (bound.map declare)
    let l ← match premise with
      | some f => f.detailed
      | none => pure none
    let r ← conclusion.detailed
    return some (sentence declared l r)
  | constant f => f.detailed

/-- The short text of a list of bound variables: of more than three the first and the last. -/
def variablesText (bound : List String) : String :=
  if bound.length > 3 then
    declare (bound.head?.getD "") ++ " ..+" ++ toString (bound.length - 2) ++ ".. " ++ declare (bound.getLast?.getD "")
  else String.intercalate ", " (bound.map declare)

def text : Constraint → Except Error String
  | implication bound premise conclusion => do
    let l ← match premise with
      | some f => (f.text).map some
      | none => pure none
    let r ← conclusion.text
    return sentence (variablesText bound) l (some r)
  | constant f => f.text

end Constraint

end Supermartingale
