import Supermartingale.Number
import Supermartingale.Text.Class

/-!
# What can go wrong

Every failure of the library is one value of `Error`. Its `kind` says which sort of failure it
is, and `message` gives the wording where the library words it itself.
-/

namespace Supermartingale.Text

/-! ## Quoted texts -/

def hex (width n : Nat) : String :=
  let digits := Nat.toDigits 16 n
  String.ofList (List.replicate (width - digits.length) '0' ++ digits)

def quoteChar (quote c : Char) : String :=
  if c == quote || c == '\\' then String.ofList ['\\', c]
  else if c == '\n' then "\\n"
  else if c == '\t' then "\\t"
  else if c == '\r' then "\\r"
  else if c.toNat < 32 || c.toNat = 127 then "\\x" ++ hex 2 c.toNat
  else if 127 < c.toNat && c.toNat < 161 || c.toNat = 173 then "\\x" ++ hex 2 c.toNat
  else String.ofList [c]

def quoted (s : String) : String :=
  let cs := s.toList
  let quote := if cs.contains '\'' && !cs.contains '"' then '"' else '\''
  let body := String.join (cs.map (quoteChar quote))
  String.ofList [quote] ++ body ++ String.ofList [quote]

def quotedList (xs : List String) : String := "[" ++ String.intercalate ", " (xs.map quoted) ++ "]"

end Supermartingale.Text

/-! ## Errors -/

namespace Supermartingale

inductive ErrorKind where
  | expression
  | value
  | sort
  | part
  | key
  | position
  | endless
  | tooLarge
  | divisionByZero
  | requirement
  | word
  | text
  | file
  | folder
  | noFolder
  | json
  | yaml
  | yamlText
  | yamlCharacter
  | yamlNode
  | yamlValue
  | answer
  | grammar
  | unknownName
  | polynomial
deriving DecidableEq, Repr

inductive Error where
  | malformedExpression
  | notPolynomial
  | misapplied
  | comparisonGiven
  | numeralTooLong
  | numberTooLarge
  | zeroDivisor
  | unknownRelation (text : String)
  | unmatchedPowers (names powers : String)
  | negativePower
  | circular
  | missingKey (name : String)
  | missingPosition
  | noComparison (chunk : String)
  | manyComparisons (chunk : String)
  | refusedWord (word text : String)
  | expectedPolynomial (found : String)
  | guardWithoutLookup
  | emptyFormula
  | unjoinedFormula
  | emptyConstraint
  | absentPart
  | negativeCount
  | orderTooHigh (order : Nat) (distribution : String)
  | dimensionMismatch (name : String) (length : Nat) (dimension : String)
  | boundsOutOfOrder
  | unknownDistribution (name known : String)
  | degreeTooSmall
  | unknownTheorem (name known : String)
  | unknownSolver (name known : String)
  | emptyVector (what : String)
  | unknownPolicyMode (text : String)
  | unknownPolicyGoal (text : String)
  | unknownTemplateKind (text : String)
  | policyWithoutActions
  | policyWithoutStem
  | givenPolicies
  | policyNumberMissing
  | unknownPolicyNumber (number : Int)
  | policyGoalMissing
  | noPieces
  | notAPiece (found : String)
  | pieceMismatch (pieces : Nat) (states : String)
  | unknownStage
  | unexpectedWord
  | unexpectedText
  | templateWithoutNumber (kind : String)
  | deltaNotPositive
  | probabilityOutOfRange
  | incomparable (left right : String)
  | noSuchFile (path : String)
  | isFolder (path : String)
  | notAFolder (path : String)
  | inputNotFound (path : String)
  | noInputFiles
  | sectionMismatch (name expected found : String)
  | lookupNotATable (found : String)
  | lookupMismatch (found : String)
  | translatorMissing (path : String)
  | noSpecification
  | malformedJson (what : String) (line column position : Nat)
  | malformedYaml
  | unreadableYaml
  | unprintableYaml
  | looseYaml
  | valuelessYaml
  | noSuchCharacter
  | noSuchDate
  | notWhole
  | noAnswer
  | unsatisfied
  | noInputPath
  | invalidInputPath (path : String)
  | notANumber (text : String)
  | notAPair (length : Nat)
  | notAnExpression
  | unboundName (name : String)
  | shapesDiffer
  | negativeWordPower
  | negativeSize
  | axisNotIncreasing
deriving DecidableEq, Repr

instance : Inhabited Error := ⟨.absentPart⟩

namespace Error

def kind : Error → ErrorKind
  | malformedExpression => .expression
  | notPolynomial => .part
  | misapplied => .sort
  | comparisonGiven => .polynomial
  | numeralTooLong => .value
  | numberTooLarge => .tooLarge
  | zeroDivisor => .divisionByZero
  | unknownRelation _ => .value
  | unmatchedPowers _ _ => .value
  | negativePower => .endless
  | circular => .endless
  | missingKey _ => .key
  | missingPosition => .position
  | noComparison _ => .value
  | manyComparisons _ => .value
  | refusedWord _ _ => .value
  | expectedPolynomial _ => .sort
  | guardWithoutLookup => .value
  | emptyFormula => .value
  | unjoinedFormula => .value
  | emptyConstraint => .value
  | absentPart => .part
  | negativeCount => .value
  | orderTooHigh _ _ => .value
  | dimensionMismatch _ _ _ => .value
  | boundsOutOfOrder => .value
  | unknownDistribution _ _ => .value
  | degreeTooSmall => .value
  | unknownTheorem _ _ => .value
  | unknownSolver _ _ => .value
  | emptyVector _ => .value
  | unknownPolicyMode _ => .value
  | unknownPolicyGoal _ => .value
  | unknownTemplateKind _ => .value
  | policyWithoutActions => .part
  | policyWithoutStem => .value
  | givenPolicies => .sort
  | policyNumberMissing => .value
  | unknownPolicyNumber _ => .value
  | policyGoalMissing => .value
  | noPieces => .value
  | notAPiece _ => .sort
  | pieceMismatch _ _ => .value
  | unknownStage => .value
  | unexpectedWord => .word
  | unexpectedText => .text
  | templateWithoutNumber _ => .value
  | deltaNotPositive => .requirement
  | probabilityOutOfRange => .requirement
  | incomparable _ _ => .sort
  | noSuchFile _ => .file
  | isFolder _ => .folder
  | notAFolder _ => .noFolder
  | inputNotFound _ => .file
  | noInputFiles => .value
  | sectionMismatch _ _ _ => .sort
  | lookupNotATable _ => .sort
  | lookupMismatch _ => .sort
  | translatorMissing _ => .file
  | noSpecification => .value
  | malformedJson _ _ _ _ => .json
  | malformedYaml => .yaml
  | unreadableYaml => .yamlText
  | unprintableYaml => .yamlCharacter
  | looseYaml => .yamlNode
  | valuelessYaml => .yamlValue
  | noSuchCharacter => .value
  | noSuchDate => .value
  | notWhole => .value
  | noAnswer => .answer
  | unsatisfied => .requirement
  | noInputPath => .value
  | invalidInputPath _ => .value
  | notANumber _ => .value
  | notAPair _ => .value
  | notAnExpression => .grammar
  | unboundName _ => .unknownName
  | shapesDiffer => .value
  | negativeWordPower => .value
  | negativeSize => .value
  | axisNotIncreasing => .value

def message : Error → Option String
  | unknownRelation text => some s!"Invalid condition type: {text}"
  | unmatchedPowers names powers => some s!"The number of variables and powers must match: {names} vs. {powers}"
  | noComparison chunk => some s!"Invalid inequality format (zero-comparator): {chunk}"
  | manyComparisons chunk => some s!"Invalid inequality format (multi-comparator): {chunk}"
  | refusedWord word text => some s!"Invalid token in space inequality: {word} in {text}"
  | expectedPolynomial found => some s!"Expected Equation, got {found}"
  | guardWithoutLookup => some "You should provide lookup table for the string guard."
  | emptyFormula => some "You should provide at least one expression."
  | unjoinedFormula => some "Aggregation type must be provided for list of expressions."
  | emptyConstraint => some "At least one of the left-hand side or right-hand side must be provided."
  | orderTooHigh order distribution =>
    some s!"Expectations higher than order {order} are not supported for the {distribution} distribution."
  | dimensionMismatch name length dimension =>
    some s!"Dimension of {name} vector ({length}) does not match the specified dimension ({dimension})."
  | boundsOutOfOrder => some "Each lower bound must be less than the corresponding upper bound."
  | unknownDistribution name known =>
    some s!"Invalid distribution name: {name}.             Valid distributions are: {known}"
  | degreeTooSmall => some "The maximum polynomial degree must be greater than or equal to 1."
  | unknownTheorem name known => some s!"Invalid theorem name ({name}). Choose one of {known}."
  | unknownSolver name known => some s!"Invalid solver name ({name}). Choose one of {known}."
  | emptyVector what => some s!"The dimension of the {what} space must be greater than 0."
  | unknownPolicyMode text => some s!"Invalid policy mode: {text}."
  | unknownPolicyGoal text => some s!"Invalid policy type: {text}."
  | unknownTemplateKind text => some s!"Invalid template type: {text}."
  | policyWithoutStem => some "No prefix provided for the control policy. You must provide a prefix in synthesis mode."
  | givenPolicies => some "exceptions must derive from BaseException"
  | policyNumberMissing => some "Policy ID is required for Buchi policies."
  | unknownPolicyNumber number => some s!"Invalid policy ID: {number}."
  | policyGoalMissing => some "Policy type is not provided."
  | noPieces => some "At least one system transformer must be provided."
  | notAPiece found => some s!"Expected system transformer to be of type ConditionalEquation, got {found}."
  | pieceMismatch pieces states =>
    some s!"The number of system transformers must match the state dimension. ({pieces} != {states})"
  | templateWithoutNumber kind => some s!"{kind} template requires an instance_id."
  | deltaNotPositive => some "Delta for safety should be greater than 0."
  | probabilityOutOfRange => some "Probability threshold should be in the range [0, 1)."
  | incomparable left right => some s!"'>' not supported between instances of '{left}' and '{right}'"
  | inputNotFound path => some s!"Input path not found: {path}"
  | noInputFiles => some "At least one input file must be provided."
  | sectionMismatch name expected found =>
    some s!"Attribute '{name}' is expected to be of type {expected}, but got {found} instead."
  | lookupNotATable found => some s!"Attribute 'lookup_table' is expected to be of type dict, but got {found} instead."
  | lookupMismatch found =>
    some s!"Attribute 'predicate_lookup' is expected to be of type PredicateLookup, but got {found} instead."
  | translatorMissing path => some s!"OWL binary file not found at path '{path}' and no HOA path provided."
  | noSpecification => some "At least one of the 'ltl_formula' or 'hoa_path' attributes must be provided."
  | unsatisfied => some "Failed to satisfy the constraints"
  | noInputPath => some "Please provide a path to the input file for the system"
  | invalidInputPath path => some s!"Invalid path provided for the system: {path}"
  | _ => none

def report (e : Error) : String :=
  match e.message with
  | some text => text
  | none => match e with
    | missingKey name => Text.quoted name
    | noSuchFile path => "[Errno 2] No such file or directory: " ++ Text.quoted path
    | isFolder path => "[Errno 21] Is a directory: " ++ Text.quoted path
    | notAFolder path => "[Errno 20] Not a directory: " ++ Text.quoted path
    | malformedJson what line column position => s!"{what}: line {line} column {column} (char {position})"
    | notANumber text => "invalid literal for int() with base 10: " ++ Text.quoted text
    | missingPosition => "list index out of range"
    | zeroDivisor => "division by zero"
    | _ => ""

def ofFault : Number.Fault → Error
  | .tooLarge => numberTooLarge
  | .divisionByZero => zeroDivisor

end Error

def liftFault {α : Type} : Except Number.Fault α → Except Error α
  | .ok x => .ok x
  | .error f => .error (Error.ofFault f)

end Supermartingale
