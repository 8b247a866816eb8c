import Supermartingale.Space
import Supermartingale.Text.Substitution

/-!
# Guards

A guard is the label of a transition together with the table that says which part of the space each proposition stands
for. For the solver a proposition becomes the conjunction of its inequalities, its negation the disjunction of their
relaxed negations.
-/

namespace Supermartingale.Label

/-! ## Labels -/

def precedence : Char → Except Error Nat
  | '!' => .ok 3
  | '&' => .ok 2
  | '|' => .ok 1
  | c => .error (.missingKey (String.ofList [c]))

def groupsLeft (c : Char) : Bool := c == '&' || c == '|'

/-- Moves operators from the stack to the output as long as they bind tighter than `c`, or as
tightly when `c` groups from the left. -/
def unstack (c : Char) (output : List Char) : List Char → Except Error (List Char × List Char)
  | [] => .ok (output, [])
  | top :: stack =>
    if top == '(' then .ok (output, top :: stack)
    else do
      let p ← precedence c
      let q ← precedence top
      if p < q || (p == q && groupsLeft c) then unstack c (top :: output) stack
      else return (output, top :: stack)

def unstackGroup (output : List Char) : List Char → Except Error (List Char × List Char)
  | [] => .error .missingPosition
  | top :: stack =>
    if top == '(' then .ok (output, stack) else unstackGroup (top :: output) stack

/-- Orders the characters of a label so that operands stand before their operator. The output is
collected in reverse. -/
def postfixForm (output stack : List Char) : List Char → Except Error (List Char)
  | [] => .ok (output.reverse ++ stack)
  | c :: cs =>
    if Text.isAlphanumeric c then postfixForm (c :: output) stack cs
    else if c == '(' then postfixForm output (c :: stack) cs
    else if c == ')' then do
      let (output, stack) ← unstackGroup output stack
      postfixForm output stack cs
    else do
      let (output, stack) ← unstack c output stack
      postfixForm output (c :: stack) cs

def combine (stack : List String) : List Char → Except Error (List String)
  | [] => .ok stack
  | c :: cs =>
    let op := String.ofList [c]
    if Text.isAlphanumeric c then combine (op :: stack) cs
    else if c == '!' then
      match stack with
      | a :: stack => combine (("(" ++ op ++ " " ++ a ++ ")") :: stack) cs
      | [] => .error .missingPosition
    else
      match stack with
      | b :: a :: stack => combine (("(" ++ op ++ " " ++ a ++ " " ++ b ++ ")") :: stack) cs
      | _ => .error .missingPosition

def turn (c : Char) : Char :=
  if c == '(' then ')' else if c == ')' then '(' else c

/-- The prefix form of a label: of the texts left on the stack, the one put there first. -/
def prefixForm (label : String) : Except Error String := do
  let reversed := (label.toList.filter (· != ' ')).reverse.map turn
  let ordered ← postfixForm [] [] reversed
  let stack ← combine [] ordered
  match stack.getLast? with
  | some s => return s
  | none => throw .missingPosition

end Supermartingale.Label

/-! ## Guards -/

namespace Supermartingale

inductive Connective where
  | conjunction
  | disjunction
deriving DecidableEq, Repr

namespace Connective

def word : Connective → String
  | conjunction => "and"
  | disjunction => "or"

def sign : Connective → String
  | conjunction => "&"
  | disjunction => "|"

def join (k : Connective) : List String → Except Error String
  | [] => .error .missingPosition
  | s :: rest => .ok (rest.foldl (fun acc t => "(" ++ k.word ++ " " ++ acc ++ " " ++ t ++ ")") s)

end Connective

structure Guard where
  label : String
  lookup : Text.Table

namespace Guard

/-- Digits of proposition indices are written as letters while they are replaced, so that they
are not taken for digits of what has been put in. -/
def letter (c : Char) : Char :=
  if c.isDigit then Char.ofNat ('a'.toNat + (c.toNat - '0'.toNat)) else c

def letters (s : String) : String := String.ofList (s.toList.map letter)

def literals (proposition space : String) : Except Error Text.Table := do
  let inequalities ← Space.read space
  let negative ← Connective.disjunction.join (← inequalities.mapM (fun i => i.negate.smt))
  let positive ← Connective.conjunction.join (← inequalities.mapM Inequality.smt)
  return [("!" ++ proposition, negative), (proposition, positive)]

def setEntry (table : Text.Table) (k v : String) : Text.Table :=
  if table.any (fun (n, _) => n == k) then
    table.map (fun (n, w) => if n == k then (n, v) else (n, w))
  else table ++ [(k, v)]

def literalTable (lookup : Text.Table) : Except Error Text.Table :=
  lookup.foldlM (fun table (k, v) => do
    let entries ← literals k v
    return entries.foldl (fun t (k, v) => setEntry t k v) table) []

def doublyWrapped (cs : List Char) : Bool := cs.take 2 == ['(', '('] && cs.reverse.take 2 == [')', ')']

def smt (g : Guard) : Except Error String := do
  if g.label.isEmpty then return "(> 1 0)"
  let form ← Label.prefixForm g.label
  let start := letters (Text.replaceAll " " "" form)
  let table ← literalTable g.lookup
  let replaced := table.foldl (fun s (k, v) =>
    let key := letters k
    Text.replaceAll key v (Text.replaceAll ("(" ++ key ++ ")") v s)) start
  let worded := Text.replaceAll "&" "and" (Text.replaceAll "|" "or" replaced)
  let cs := worded.toList
  return if doublyWrapped cs then String.ofList ((cs.drop 1).take (cs.length - 2)) else worded

def isGuarded (g : Guard) : Bool := !g.label.isEmpty

def detailed (g : Guard) : String := "(" ++ g.label ++ ")"

def text (g : Guard) : String := if g.isGuarded then "Guard-δ" else ""

end Guard

end Supermartingale
